import Ureth.Foundation.Steps
import Ureth.Source.Payload.TokensSpec

/-!
# The token store under concurrent operations

Any number of publications, restores, resolutions, pins and admissions on one token store,
interleaved section by section: a section under the lock or a transaction of the sidecar is
one step, and an operation between two of its sections is a task. The pins that are out are
kept by hash, one for each lease and each admission pin.
-/

namespace Ureth.Source.Payload
open Ureth.Foundation Ureth.Source.Execution Ureth.Source.Store

/-- What an operation has still to do. A restore may be part of a resolution. -/
inductive TokenTask where
  | publishing (hash : Bytes32) (number : UInt64) (identity : Identity) (token : CompletedParent)
  | looking (header : SealedHeader) (identity : Identity) (profile : BlockProfile) (resolving : Bool)
  | loading (header : SealedHeader) (identity : Identity) (profile : BlockProfile) (resolving : Bool)
  | caching (header : SealedHeader) (identity : Identity) (profile : BlockProfile) (resolving : Bool)
      (token : CompletedParent)
  | leasing (parent : SealedHeader) (identity : Identity) (profile : BlockProfile)

structure TokenState where
  tokens : UnicityParentAccountings
  tasks : List TokenTask
  held : List Bytes32

inductive TokenLabel where
  | recorded (hash : Bytes32)
  | published (hash : Bytes32) (number : UInt64) (identity : Identity) (token : CompletedParent)
  /-- A restore answered with the token it read from the sidecar. -/
  | restored (hash : Bytes32) (token : CompletedParent)
  /-- A restore answered from the cache. -/
  | answered (hash : Bytes32) (token : CompletedParent)
  | resolved (parent : SealedHeader) (identity : Identity) (profile : BlockProfile)
      (lease : ParentAccountingLease)
  | pinned (hash : Bytes32)
  | unpinned (hash : Bytes32)
  | admitted (hash : Bytes32)
  | sidecar (pruning : Bool)
  | other

/-- What is left of a restore that has its answer. -/
def afterRestore (header : SealedHeader) (identity : Identity) (profile : BlockProfile)
    (resolving : Bool) : List TokenTask :=
  if resolving then [.leasing header identity profile] else []

def TokenState.setInner (st : TokenState) (inner : ParentAccountingInner) (tasks : List TokenTask)
    (held : List Bytes32) : TokenState :=
  ⟨{ st.tokens with inner := inner }, tasks, held⟩

/-- A store just created. -/
def TokenState.start (capacity : Nat) (durable : Option CompanionStore) (required : Bool) :
    TokenState :=
  ⟨⟨.withCapacity capacity, durable, required⟩, [], []⟩

variable (hashSlow : Header → Bytes32)

inductive TokenStep : TokenState → TokenLabel → TokenState → Prop
  /-- A publication's checks and durable write. -/
  | record {st : TokenState} {hash : Bytes32} {number : UInt64} {identity : Identity}
      {token : CompletedParent} {tokens' : UnicityParentAccountings}
      (written : recordToken hash number identity token st.tokens = (.ok (), tokens')) :
      TokenStep st (.recorded hash)
        ⟨tokens', .publishing hash number identity token :: st.tasks, st.held⟩
  /-- A publication's insertion. -/
  | publish {st : TokenState} {pre post : List TokenTask} {hash : Bytes32} {number : UInt64}
      {identity : Identity} {token : CompletedParent}
      (due : st.tasks = pre ++ .publishing hash number identity token :: post) :
      TokenStep st (.published hash number identity token)
        (st.setInner (st.tokens.inner.insertInner hash number token (some identity) true)
          (pre ++ post) st.held)
  /-- A restore is called. -/
  | restore {st : TokenState} (header : SealedHeader) (identity : Identity) (profile : BlockProfile) :
      TokenStep st .other { st with tasks := .looking header identity profile false :: st.tasks }
  /-- A resolution is called and finds an entry, or none and restores first. -/
  | resolve {st : TokenState} (parent : SealedHeader) (identity : Identity) (profile : BlockProfile) :
      TokenStep st .other { st with tasks :=
        (match st.tokens.inner.find parent.hash with
         | some _ => .leasing parent identity profile
         | none => .looking parent identity profile true) :: st.tasks }
  /-- A restore looks into the cache: an answer, a refusal, or nothing. -/
  | hit {st : TokenState} {pre post : List TokenTask} {header : SealedHeader} {identity : Identity}
      {profile : BlockProfile} {resolving : Bool} {token : CompletedParent}
      (due : st.tasks = pre ++ .looking header identity profile resolving :: post)
      (answer : cachedToken hashSlow st.tokens.inner header identity profile = .ok (some token)) :
      TokenStep st (.answered header.hash token)
        { st with tasks := pre ++ afterRestore header identity profile resolving ++ post }
  | mismatch {st : TokenState} {pre post : List TokenTask} {header : SealedHeader}
      {identity : Identity} {profile : BlockProfile} {resolving : Bool} {e : Fault StoreError}
      (due : st.tasks = pre ++ .looking header identity profile resolving :: post)
      (answer : cachedToken hashSlow st.tokens.inner header identity profile = .error e) :
      TokenStep st .other { st with tasks := pre ++ post }
  | miss {st : TokenState} {pre post : List TokenTask} {header : SealedHeader} {identity : Identity}
      {profile : BlockProfile} {resolving : Bool}
      (due : st.tasks = pre ++ .looking header identity profile resolving :: post)
      (answer : cachedToken hashSlow st.tokens.inner header identity profile = .ok none) :
      TokenStep st .other
        { st with tasks := pre ++ .loading header identity profile resolving :: post }
  /-- A restore reads the sidecar. -/
  | load {st : TokenState} {pre post : List TokenTask} {header : SealedHeader} {identity : Identity}
      {profile : BlockProfile} {resolving : Bool} {token : CompletedParent}
      (due : st.tasks = pre ++ .loading header identity profile resolving :: post)
      (answer : loadToken hashSlow st.tokens.durable st.tokens.durabilityRequired header identity
        profile = .ok (some token)) :
      TokenStep st .other
        { st with tasks := pre ++ .caching header identity profile resolving token :: post }
  | absent {st : TokenState} {pre post : List TokenTask} {header : SealedHeader} {identity : Identity}
      {profile : BlockProfile} {resolving : Bool}
      (due : st.tasks = pre ++ .loading header identity profile resolving :: post)
      (answer : loadToken hashSlow st.tokens.durable st.tokens.durabilityRequired header identity
        profile = .ok none) :
      TokenStep st .other
        { st with tasks := pre ++ afterRestore header identity profile resolving ++ post }
  | unreadable {st : TokenState} {pre post : List TokenTask} {header : SealedHeader}
      {identity : Identity} {profile : BlockProfile} {resolving : Bool} {e : Fault StoreError}
      (due : st.tasks = pre ++ .loading header identity profile resolving :: post)
      (answer : loadToken hashSlow st.tokens.durable st.tokens.durabilityRequired header identity
        profile = .error e) :
      TokenStep st .other { st with tasks := pre ++ post }
  /-- A restore's insertion. -/
  | cache {st : TokenState} {pre post : List TokenTask} {header : SealedHeader} {identity : Identity}
      {profile : BlockProfile} {resolving : Bool} {token : CompletedParent}
      (due : st.tasks = pre ++ .caching header identity profile resolving token :: post) :
      TokenStep st (.restored header.hash token)
        (st.setInner (st.tokens.inner.insertInner header.hash header.header.number token
          (some identity) false)
          (pre ++ afterRestore header identity profile resolving ++ post) st.held)
  /-- A resolution's last section. -/
  | lease {st : TokenState} {pre post : List TokenTask} {parent : SealedHeader} {identity : Identity}
      {profile : BlockProfile} {lease : ParentAccountingLease} {inner : ParentAccountingInner}
      (due : st.tasks = pre ++ .leasing parent identity profile :: post)
      (taken : leaseToken hashSlow st.tokens.inner parent identity profile = .ok (lease, inner)) :
      TokenStep st (.resolved parent identity profile lease)
        (st.setInner inner (pre ++ post) (lease.hash :: st.held))
  | unavailable {st : TokenState} {pre post : List TokenTask} {parent : SealedHeader}
      {identity : Identity} {profile : BlockProfile} {e : Fault ParentAccountingUnavailable}
      (due : st.tasks = pre ++ .leasing parent identity profile :: post)
      (refused : leaseToken hashSlow st.tokens.inner parent identity profile = .error e) :
      TokenStep st .other { st with tasks := pre ++ post }
  | pin {st : TokenState} {hash : Bytes32} {inner : ParentAccountingInner}
      (found : st.tokens.inner.pin hash = some inner) :
      TokenStep st (.pinned hash) (st.setInner inner st.tasks (hash :: st.held))
  /-- A lease or an admission pin is dropped. -/
  | unpin {st : TokenState} {hash : Bytes32} {inner : ParentAccountingInner} (out : hash ∈ st.held)
      (released : (st.tokens.inner.unpin hash : Res Unit _) = .ok inner) :
      TokenStep st (.unpinned hash) (st.setInner inner st.tasks (st.held.erase hash))
  | admission {st : TokenState} {hash : Bytes32} (found : (st.tokens.inner.admitToken hash).1 = true) :
      TokenStep st (.admitted hash)
        (st.setInner (st.tokens.inner.admitToken hash).2 st.tasks st.held)
  /-- The sidecar is attached, once. -/
  | attach {st : TokenState} (s : CompanionStore) (unset : st.tokens.durable = none) :
      TokenStep st .other { st with tokens := { st.tokens with durable := some s } }
  /-- Whatever else is done with the sidecar: it records no accounting, and may prune it. -/
  | sidecar {st : TokenState} {s s' : CompanionStore} {pruning : Bool}
      (attached : st.tokens.durable = some s)
      (fewer : ∀ h r, s'.getAccounting h = .ok (some r) → s.getAccounting h = .ok (some r))
      (kept : pruning = false → ∀ h, s'.getAccounting h = s.getAccounting h) :
      TokenStep st (.sidecar pruning) { st with tokens := { st.tokens with durable := some s' } }

/-! ## An operation run alone is a run of its sections -/

section Alone

variable {hashSlow} {tokens tokens' : UnicityParentAccountings} {tasks : List TokenTask}
  {held : List Bytes32} {identity : Identity} {profile : BlockProfile}

theorem publish_steps {hash : Bytes32} {number : UInt64} {token : CompletedParent}
    (h : UnicityParentAccountings.publish hash number identity token tokens = (.ok (), tokens')) :
    Steps (TokenStep hashSlow) ⟨tokens, tasks, held⟩
      [.recorded hash, .published hash number identity token] ⟨tokens', tasks, held⟩ := by
  obtain ⟨⟨⟩, written, hrecord, hinsert⟩ := Run.bind_eq_ok.mp h
  obtain ⟨-, rfl⟩ := Prod.mk.inj hinsert
  exact .cons (.record hrecord) (.single (@TokenStep.publish hashSlow _ [] _ _ _ _ _ rfl))

/-- A restore that answers leaves what its caller has to do next. -/
theorem restoreExact_steps {header : SealedHeader} {answer : Option CompletedParent}
    (h : UnicityParentAccountings.restoreExact hashSlow header identity profile tokens =
      (.ok answer, tokens')) (resolving : Bool) :
    ∃ ls, Steps (TokenStep hashSlow)
      ⟨tokens, .looking header identity profile resolving :: tasks, held⟩ ls
      ⟨tokens', afterRestore header identity profile resolving ++ tasks, held⟩ := by
  rcases hc : cachedToken hashSlow tokens.inner header identity profile with e | (_ | token)
  · simp only [UnicityParentAccountings.restoreExact, hc, Prod.mk.injEq] at h
    cases h.1
  · rcases hl : loadToken hashSlow tokens.durable tokens.durabilityRequired header identity profile
      with e | (_ | token)
    · simp only [UnicityParentAccountings.restoreExact, hc, UnicityParentAccountings.restoreFromDisk,
        hl, Prod.mk.injEq] at h
      cases h.1
    · simp only [UnicityParentAccountings.restoreExact, hc, UnicityParentAccountings.restoreFromDisk,
        hl, Prod.mk.injEq] at h
      obtain ⟨-, rfl⟩ := h
      exact ⟨_, .cons (@TokenStep.miss hashSlow _ [] _ _ _ _ _ rfl hc)
        (.single (@TokenStep.absent hashSlow _ [] _ _ _ _ _ rfl hl))⟩
    · simp only [UnicityParentAccountings.restoreExact, hc, UnicityParentAccountings.restoreFromDisk,
        hl, Prod.mk.injEq] at h
      obtain ⟨-, rfl⟩ := h
      exact ⟨_, .cons (@TokenStep.miss hashSlow _ [] _ _ _ _ _ rfl hc)
        (.cons (@TokenStep.load hashSlow _ [] _ _ _ _ _ _ rfl hl)
          (.single (@TokenStep.cache hashSlow _ [] _ _ _ _ _ _ rfl)))⟩
  · simp only [UnicityParentAccountings.restoreExact, hc, Prod.mk.injEq] at h
    obtain ⟨-, rfl⟩ := h
    exact ⟨_, .single (@TokenStep.hit hashSlow _ [] _ _ _ _ _ _ rfl hc)⟩

theorem lease_step {parent : SealedHeader} {lease : ParentAccountingLease}
    (h : UnicityParentAccountings.lease hashSlow parent identity profile tokens = (.ok lease, tokens')) :
    TokenStep hashSlow ⟨tokens, .leasing parent identity profile :: tasks, held⟩
      (.resolved parent identity profile lease) ⟨tokens', tasks, lease.hash :: held⟩ := by
  unfold UnicityParentAccountings.lease at h
  split at h
  next l inner hl =>
    obtain ⟨hlease, rfl⟩ := Prod.mk.inj h
    obtain rfl := Except.ok.inj hlease
    exact @TokenStep.lease hashSlow _ [] _ _ _ _ _ _ rfl hl
  next => cases (Prod.mk.inj h).1

theorem resolve_steps {parent : SealedHeader} {lease : ParentAccountingLease}
    (h : UnicityParentAccountings.resolve hashSlow parent identity profile tokens =
      (.ok lease, tokens')) :
    ∃ ls, Steps (TokenStep hashSlow) ⟨tokens, tasks, held⟩
      (ls ++ [.resolved parent identity profile lease]) ⟨tokens', tasks, lease.hash :: held⟩ := by
  have hcalled := @TokenStep.resolve hashSlow ⟨tokens, tasks, held⟩ parent identity profile
  cases hfind : tokens.inner.find parent.hash with
  | some e =>
    simp only [UnicityParentAccountings.resolve, hfind] at h hcalled
    exact ⟨[.other], .snoc (.single hcalled) (lease_step h)⟩
  | none =>
    simp only [UnicityParentAccountings.resolve, hfind] at h hcalled
    obtain ⟨answer, t, hrestore, hlease⟩ := Run.bind_eq_ok.mp h
    obtain ⟨hok, hstate⟩ := Prod.mk.inj hrestore
    have hsteps : ∃ ls, Steps (TokenStep hashSlow)
        ⟨tokens, .looking parent identity profile true :: tasks, held⟩ ls
        ⟨t, .leasing parent identity profile :: tasks, held⟩ :=
      restoreExact_steps (Prod.ext (Res.mapErr_eq_ok.mp hok) hstate) true
    obtain ⟨ls, hsteps⟩ := hsteps
    exact ⟨_, .snoc (.cons hcalled hsteps) (lease_step hlease)⟩

end Alone

/-! ## What a step does to the cache -/

inductive InnerStep : ParentAccountingInner → TokenLabel → ParentAccountingInner → Prop
  | same {inner : ParentAccountingInner} {label : TokenLabel} : InnerStep inner label inner
  | published {inner : ParentAccountingInner} {hash : Bytes32} {number : UInt64}
      {identity : Identity} {token : CompletedParent} :
      InnerStep inner (.published hash number identity token)
        (inner.insertInner hash number token (some identity) true)
  | restored {inner : ParentAccountingInner} {hash : Bytes32} {number : UInt64}
      {identity : Identity} {token : CompletedParent} :
      InnerStep inner (.restored hash token)
        (inner.insertInner hash number token (some identity) false)
  | resolved {inner : ParentAccountingInner} {parent : SealedHeader} {identity : Identity}
      {profile : BlockProfile} {lease : ParentAccountingLease} :
      InnerStep inner (.resolved parent identity profile lease) (inner.leased parent.hash)
  | pinned {inner : ParentAccountingInner} {hash : Bytes32} :
      InnerStep inner (.pinned hash)
        (inner.update hash fun entry => { entry with pins := entry.pins + 1 })
  | unpinned {inner inner' : ParentAccountingInner} {hash : Bytes32}
      (released : (inner.unpin hash : Res Unit _) = .ok inner') :
      InnerStep inner (.unpinned hash) inner'
  | admitted {inner : ParentAccountingInner} {hash : Bytes32} :
      InnerStep inner (.admitted hash)
        { inner.update hash fun entry => { entry with admitted := true } with
          protectedHash := some hash }

theorem inner_recordToken (hash : Bytes32) (number : UInt64) (identity : Identity)
    (token : CompletedParent) (tokens : UnicityParentAccountings) :
    (recordToken hash number identity token tokens).2.inner = tokens.inner := by
  unfold recordToken
  split
  · rfl
  · split <;> rfl

variable {hashSlow}

theorem TokenStep.inner {st st' : TokenState} {label : TokenLabel}
    (h : TokenStep hashSlow st label st') : InnerStep st.tokens.inner label st'.tokens.inner := by
  cases h with
  | @record hash number identity token _ written =>
    have hsame := inner_recordToken hash number identity token st.tokens
    rw [written] at hsame
    rw [← hsame]
    exact .same
  | publish => exact .published
  | restore => exact .same
  | resolve => exact .same
  | hit => exact .same
  | mismatch => exact .same
  | miss => exact .same
  | load => exact .same
  | absent => exact .same
  | unreadable => exact .same
  | cache => exact .restored
  | lease due taken =>
    obtain ⟨e, -, -, -, -, -, -, rfl⟩ := leaseToken_eq_ok.mp taken
    exact .resolved
  | unavailable => exact .same
  | pin found =>
    obtain ⟨e, -, rfl⟩ := Option.map_eq_some_iff.mp found
    exact .pinned
  | unpin out released => exact .unpinned released
  | @admission hash found =>
    cases hfind : st.tokens.inner.find hash with
    | none => simp [ParentAccountingInner.admitToken, hfind] at found
    | some e =>
      simp only [ParentAccountingInner.admitToken, hfind, TokenState.setInner]
      exact .admitted
  | attach => exact .same
  | sidecar => exact .same

open ParentAccountingInner in
theorem InnerStep.distinct {inner inner' : ParentAccountingInner} {label : TokenLabel}
    (h : InnerStep inner label inner') (hd : inner.Distinct) : inner'.Distinct := by
  cases h with
  | same => exact hd
  | published => exact hd.insertInner
  | restored => exact hd.insertInner
  | resolved => exact hd.update fun _ => rfl
  | pinned => exact hd.update fun _ => rfl
  | unpinned released =>
    obtain ⟨r, hr, rfl⟩ := unpin_eq_ok released
    exact (evictToCapacity_shrinks _ _).distinct (hd.release hr)
  | admitted => exact hd.update fun _ => rfl

/-- The entry of `hash` is there and admitted. -/
def AdmittedIn (inner : ParentAccountingInner) (hash : Bytes32) : Prop :=
  ∃ e, inner.find hash = some e ∧ e.admitted = true

/-- A step that vouches for a hash: a live publication, or recovery's admission. -/
def Vouches (hash : Bytes32) : TokenLabel → Prop
  | .published h _ _ _ => h = hash
  | .admitted h => h = hash
  | _ => False

open ParentAccountingInner in
/-- An entry becomes admitted by a publication or an admission of its hash and by nothing else. -/
theorem InnerStep.admittedIn {inner inner' : ParentAccountingInner} {label : TokenLabel}
    {hash : Bytes32} (h : InnerStep inner label inner') (hd : inner.Distinct)
    (hadmitted : AdmittedIn inner' hash) : AdmittedIn inner hash ∨ Vouches hash label := by
  obtain ⟨e, he, hflag⟩ := hadmitted
  cases h with
  | same => exact .inl ⟨e, he, hflag⟩
  | @published h number identity token =>
    by_cases heq : hash = h
    · exact .inr heq.symm
    · exact .inl ⟨e, find_insertInner_of_ne hd heq he, hflag⟩
  | @restored h number identity token =>
    by_cases heq : hash = h
    · subst heq
      rw [find_insertInner_self, Option.some.injEq] at he
      cases hfind : inner.find hash with
      | none =>
        rw [hfind] at he
        rw [← he] at hflag
        cases hflag
      | some old =>
        rw [hfind, Option.map_some, Option.getD_some] at he
        refine .inl ⟨old, hfind, ?_⟩
        rw [← he, refresh] at hflag
        split at hflag
        · exact hflag
        · simpa using hflag
    · exact .inl ⟨e, find_insertInner_of_ne hd heq he, hflag⟩
  | resolved =>
    obtain ⟨old, hold, rfl | ⟨-, rfl⟩⟩ := find_of_update he fun _ => rfl
    · exact .inl ⟨e, hold, hflag⟩
    · exact .inl ⟨old, hold, hflag⟩
  | pinned =>
    obtain ⟨old, hold, rfl | ⟨-, rfl⟩⟩ := find_of_update he fun _ => rfl
    · exact .inl ⟨e, hold, hflag⟩
    · exact .inl ⟨old, hold, hflag⟩
  | unpinned released =>
    obtain ⟨old, pins, hold, rfl⟩ := find_of_unpin hd released he
    exact .inl ⟨old, hold, hflag⟩
  | admitted =>
    obtain ⟨old, hold, rfl | ⟨heq, rfl⟩⟩ := find_of_update he fun _ => rfl
    · exact .inl ⟨e, hold, hflag⟩
    · exact .inr heq.symm

theorem TokenStep.distinct {st st' : TokenState} {label : TokenLabel}
    (h : TokenStep hashSlow st label st') (hd : st.tokens.inner.Distinct) :
    st'.tokens.inner.Distinct :=
  h.inner.distinct hd

theorem distinct_start (capacity : Nat) (durable : Option CompanionStore) (required : Bool) :
    (TokenState.start capacity durable required).tokens.inner.Distinct :=
  List.nodup_nil

/-- An admitted entry was vouched for since it last entered the cache. -/
theorem Steps.vouched {capacity : Nat} {durable : Option CompanionStore} {required : Bool}
    {ls : List TokenLabel} {st : TokenState} {hash : Bytes32}
    (run : Steps (TokenStep hashSlow) (.start capacity durable required) ls st)
    (hadmitted : AdmittedIn st.tokens.inner hash) :
    Since (TokenStep hashSlow) (fun _ l _ => Vouches hash l)
      (fun u => u.tokens.inner.find hash ≠ none) (.start capacity durable required) ls st := by
  refine run.since (I := fun u => u.tokens.inner.Distinct)
    (P := fun u => AdmittedIn u.tokens.inner hash) ?_ ?_ ?_ (distinct_start ..) ?_ hadmitted
  · exact fun _ _ _ hd h => h.distinct hd
  · rintro u ⟨e, he, -⟩ hnone
    rw [he] at hnone
    cases hnone
  · exact fun _ _ _ hd h hP => h.inner.admittedIn hd hP
  · rintro ⟨e, he, -⟩
    cases he

/-! ## The sidecar -/

open ParentAccountingInner in
/-- An entry's token is the one it had, or what the step inserts. -/
theorem InnerStep.token {inner inner' : ParentAccountingInner} {label : TokenLabel}
    {hash : Bytes32} {e : ParentAccountingEntry} (h : InnerStep inner label inner')
    (hd : inner.Distinct) (he : inner'.find hash = some e) :
    (∃ old, inner.find hash = some old ∧ old.token = e.token) ∨
      (∃ number identity, label = .published hash number identity e.token) ∨
      label = .restored hash e.token := by
  have hinsert (number : UInt64) (token : CompletedParent) (identity : Option Identity)
      (admitted : Bool) (g : Bytes32)
      (he : (inner.insertInner g number token identity admitted).find hash = some e) :
      (∃ old, inner.find hash = some old ∧ old.token = e.token) ∨ hash = g ∧ e.token = token := by
    by_cases heq : hash = g
    · subst heq
      rw [find_insertInner_self, Option.some.injEq] at he
      cases hfind : inner.find hash with
      | none =>
        rw [hfind] at he
        exact .inr ⟨rfl, by rw [← he]; rfl⟩
      | some old =>
        rw [hfind, Option.map_some, Option.getD_some, refresh] at he
        split at he
        · exact .inl ⟨old, rfl, by rw [he]⟩
        · exact .inr ⟨rfl, by rw [← he]⟩
    · exact .inl ⟨e, find_insertInner_of_ne hd heq he, rfl⟩
  cases h with
  | same => exact .inl ⟨e, he, rfl⟩
  | published =>
    rcases hinsert _ _ _ _ _ he with hold | ⟨rfl, rfl⟩
    · exact .inl hold
    · exact .inr (.inl ⟨_, _, rfl⟩)
  | restored =>
    rcases hinsert _ _ _ _ _ he with hold | ⟨rfl, rfl⟩
    · exact .inl hold
    · exact .inr (.inr rfl)
  | resolved =>
    obtain ⟨old, hold, rfl | ⟨-, rfl⟩⟩ := find_of_update he fun _ => rfl
    · exact .inl ⟨e, hold, rfl⟩
    · exact .inl ⟨old, hold, rfl⟩
  | pinned =>
    obtain ⟨old, hold, rfl | ⟨-, rfl⟩⟩ := find_of_update he fun _ => rfl
    · exact .inl ⟨e, hold, rfl⟩
    · exact .inl ⟨old, hold, rfl⟩
  | unpinned released =>
    obtain ⟨old, pins, hold, rfl⟩ := find_of_unpin hd released he
    exact .inl ⟨old, hold, rfl⟩
  | admitted =>
    obtain ⟨old, hold, rfl | ⟨-, rfl⟩⟩ := find_of_update he fun _ => rfl
    · exact .inl ⟨e, hold, rfl⟩
    · exact .inl ⟨old, hold, rfl⟩

/-- The accounting the sidecar holds for a hash. -/
def TokenState.recorded (st : TokenState) (hash : Bytes32) : Option StoredAccounting :=
  st.tokens.durable.bind fun s => ((s.getAccounting hash).value?).join

/-- The sidecar's accounting of `hash` is the token's. -/
def Recorded (s : CompanionStore) (hash : Bytes32) (token : CompletedParent) : Prop :=
  ∃ r, s.getAccounting hash = .ok (some r) ∧ r.accounting = token.forLocalStorage

/-- Every record of `s` is a record of `s'`. -/
def Grows (s s' : CompanionStore) : Prop :=
  ∀ g r, s.getAccounting g = .ok (some r) → s'.getAccounting g = .ok (some r)

theorem Recorded.grow {s s' : CompanionStore} {hash : Bytes32} {token : CompletedParent}
    (h : Recorded s hash token) (hgrow : Grows s s') : Recorded s' hash token := by
  obtain ⟨r, hr, htoken⟩ := h
  exact ⟨r, hgrow _ _ hr, htoken⟩

/-- The token a task brings into the cache. -/
def TokenTask.token : TokenTask → Option (Bytes32 × CompletedParent)
  | .publishing hash _ _ token => some (hash, token)
  | .caching header _ _ _ token => some (header.hash, token)
  | _ => none

/-- The token a step brings into the cache. -/
def TokenLabel.inserted : TokenLabel → Option (Bytes32 × CompletedParent)
  | .published hash _ _ token => some (hash, token)
  | .restored hash token => some (hash, token)
  | _ => none

/-- The token an operation returns with a step. -/
def TokenLabel.returned : TokenLabel → Option (Bytes32 × CompletedParent)
  | .restored hash token => some (hash, token)
  | .answered hash token => some (hash, token)
  | .resolved parent _ _ lease => some (parent.hash, lease.token)
  | _ => none

theorem mem_of_due {tasks pre post : List TokenTask} {task : TokenTask}
    (due : tasks = pre ++ task :: post) : task ∈ tasks := by
  rw [due]
  exact List.mem_append_right _ List.mem_cons_self

theorem TokenStep.inserted {st st' : TokenState} {label : TokenLabel} {p : Bytes32 × CompletedParent}
    (h : TokenStep hashSlow st label st') (hp : label.inserted = some p) :
    ∃ task ∈ st.tasks, task.token = some p := by
  cases h with
  | publish due => exact ⟨_, mem_of_due due, hp⟩
  | cache due => exact ⟨_, mem_of_due due, hp⟩
  | _ => cases hp

theorem TokenStep.returned {st st' : TokenState} {label : TokenLabel} {p : Bytes32 × CompletedParent}
    (h : TokenStep hashSlow st label st') (hp : label.returned = some p) :
    (∃ task ∈ st.tasks, task.token = some p) ∨
      ∃ e, st.tokens.inner.find p.1 = some e ∧ e.token = p.2 := by
  cases h with
  | hit due answer =>
    obtain rfl := Option.some.inj hp
    obtain ⟨e, he, -, -, htoken⟩ := cachedToken_eq_ok_some.mp answer
    exact .inr ⟨e, he, htoken⟩
  | cache due => exact .inl ⟨_, mem_of_due due, hp⟩
  | lease due taken =>
    obtain rfl := Option.some.inj hp
    obtain ⟨e, he, -, -, -, -, htoken, -⟩ := leaseToken_eq_ok.mp taken
    exact .inr ⟨e, he, htoken.symm⟩
  | _ => cases hp

theorem recorded_of_loadToken {s : CompanionStore} {required : Bool} {header : SealedHeader}
    {identity : Identity} {profile : BlockProfile} {token : CompletedParent}
    (h : loadToken hashSlow (some s) required header identity profile = .ok (some token)) :
    Recorded s header.hash token := by
  simp only [loadToken, Res.bind_eq_ok] at h
  obtain ⟨_ | r, hget, h⟩ := h
  · cases h
  · simp only [checkRecord, Res.bind_eq_ok, Res.mapErr_eq_ok, Res.pure_eq_ok,
      Option.some.injEq] at h
    obtain ⟨_, ⟨_, -, _, hlocal, _, -, rfl⟩, rfl⟩ := h
    exact ⟨r, hget, (CompletedParent.forLocalStorage_of_fromLocalStorage hlocal).symm⟩

/-- What a publication wrote is in the sidecar, with everything that was there. -/
theorem recordToken_ok {tokens tokens' : UnicityParentAccountings} {s : CompanionStore}
    (hdurable : tokens.durable = some s) {hash : Bytes32} {number : UInt64} {identity : Identity}
    {token : CompletedParent}
    (h : recordToken hash number identity token tokens = (.ok (), tokens')) :
    ∃ s', tokens'.durable = some s' ∧ Recorded s' hash token ∧ Grows s s' := by
  unfold recordToken at h
  split at h
  next hne => cases (Prod.mk.inj h).1
  next heq =>
    rw [hdurable] at h
    obtain ⟨hok, rfl⟩ := Prod.mk.inj h
    obtain rfl : token.forLocalStorage.blockHash = hash := not_not.mp heq
    obtain ⟨hsame, hself, hother⟩ := getAccounting_of_putAccounting (Prod.ext hok rfl)
    refine ⟨_, rfl, ⟨_, hself, rfl⟩, ?_⟩
    intro g r hr
    by_cases hg : g = token.forLocalStorage.blockHash
    · subst hg
      rw [hsame r hr]
      exact hself
    · exact (hother g hg).trans hr

/-- A task that brings a token brings one that is recorded. -/
def Justified (s : CompanionStore) (task : TokenTask) : Prop := ∀ p ∈ task.token, Recorded s p.1 p.2

theorem justified_of_none {s : CompanionStore} {task : TokenTask} (h : task.token = none) :
    Justified s task := by
  intro p hp
  rw [h] at hp
  cases hp

theorem justified_of_some {s : CompanionStore} {task : TokenTask} {hash : Bytes32} {token : CompletedParent}
    (h : task.token = some (hash, token)) (hr : Recorded s hash token) : Justified s task := by
  intro p hp
  obtain rfl := Option.some.inj (h.symm.trans hp)
  exact hr

theorem justified_afterRestore {s : CompanionStore} {header : SealedHeader} {identity : Identity}
    {profile : BlockProfile} {resolving : Bool} :
    ∀ task ∈ afterRestore header identity profile resolving, Justified s task := by
  intro task htask
  cases resolving with
  | false => cases htask
  | true =>
    obtain rfl := List.mem_singleton.mp htask
    exact justified_of_none rfl

/-- A task taken off the list, for justified ones. -/
theorem justified_replace {s : CompanionStore} {tasks pre post new : List TokenTask} {due : TokenTask}
    (hdue : tasks = pre ++ due :: post) (hnew : ∀ task ∈ new, Justified s task) :
    ∀ task ∈ pre ++ new ++ post, task ∈ tasks ∨ Justified s task := by
  intro task htask
  rw [hdue]
  rcases List.mem_append.mp htask with h | h
  · rcases List.mem_append.mp h with h | h
    · exact .inl (List.mem_append_left _ h)
    · exact .inr (hnew task h)
  · exact .inl (List.mem_append_right _ (List.mem_cons_of_mem _ h))

theorem justified_drop {s : CompanionStore} {tasks pre post : List TokenTask} {due : TokenTask}
    (hdue : tasks = pre ++ due :: post) : ∀ task ∈ pre ++ post, task ∈ tasks ∨ Justified s task := by
  have h := justified_replace (s := s) hdue (List.forall_mem_nil _)
  rwa [List.append_nil] at h

theorem justified_put {s : CompanionStore} {tasks pre post : List TokenTask} {due task : TokenTask}
    (hdue : tasks = pre ++ due :: post) (h : Justified s task) :
    ∀ t ∈ pre ++ task :: post, t ∈ tasks ∨ Justified s t := by
  have hput := justified_replace hdue (List.forall_mem_singleton.mpr h)
  rwa [List.append_assoc] at hput

theorem justified_cons {s : CompanionStore} {tasks : List TokenTask} {task : TokenTask} (h : Justified s task) :
    ∀ t ∈ task :: tasks, t ∈ tasks ∨ Justified s t := by
  intro t ht
  rcases List.mem_cons.mp ht with rfl | ht
  · exact .inr h
  · exact .inl ht

/-- A step without pruning keeps every record, and a task that takes up a token takes up one that
is recorded. -/
theorem TokenStep.sidecar_grows {st st' : TokenState} {label : TokenLabel} {s : CompanionStore}
    (h : TokenStep hashSlow st label st') (hkeep : label ≠ .sidecar true)
    (hdurable : st.tokens.durable = some s) :
    ∃ s', st'.tokens.durable = some s' ∧ Grows s s' ∧
      ∀ task ∈ st'.tasks, task ∈ st.tasks ∨ Justified s' task := by
  -- what most steps do: the sidecar stays
  have hsame (st' : TokenState) (hd : st'.tokens.durable = st.tokens.durable)
      (hnew : ∀ task ∈ st'.tasks, task ∈ st.tasks ∨ Justified s task) :
      ∃ s', st'.tokens.durable = some s' ∧ Grows s s' ∧
        ∀ task ∈ st'.tasks, task ∈ st.tasks ∨ Justified s' task :=
    ⟨s, hd.trans hdurable, fun _ _ hr => hr, hnew⟩
  cases h with
  | record written =>
    obtain ⟨s', hd, hrecorded, hgrow⟩ := recordToken_ok hdurable written
    exact ⟨s', hd, hgrow, justified_cons (justified_of_some rfl hrecorded)⟩
  | publish due => exact hsame _ rfl (justified_drop due)
  | restore => exact hsame _ rfl (justified_cons (justified_of_none rfl))
  | resolve =>
    refine hsame _ rfl (justified_cons (justified_of_none ?_))
    split <;> rfl
  | hit due => exact hsame _ rfl (justified_replace due justified_afterRestore)
  | mismatch due => exact hsame _ rfl (justified_drop due)
  | miss due => exact hsame _ rfl (justified_put due (justified_of_none rfl))
  | load due answer =>
    rw [hdurable] at answer
    exact hsame _ rfl (justified_put due (justified_of_some rfl (recorded_of_loadToken answer)))
  | absent due => exact hsame _ rfl (justified_replace due justified_afterRestore)
  | unreadable due => exact hsame _ rfl (justified_drop due)
  | cache due => exact hsame _ rfl (justified_replace due justified_afterRestore)
  | lease due => exact hsame _ rfl (justified_drop due)
  | unavailable due => exact hsame _ rfl (justified_drop due)
  | pin => exact hsame _ rfl fun _ h => .inl h
  | unpin => exact hsame _ rfl fun _ h => .inl h
  | admission => exact hsame _ rfl fun _ h => .inl h
  | attach s' unset =>
    rw [hdurable] at unset
    cases unset
  | @sidecar s0 s' pruning attached fewer kept =>
    obtain rfl : s = s0 := Option.some.inj (hdurable.symm.trans attached)
    cases pruning with
    | true => exact absurd rfl hkeep
    | false => exact ⟨s', rfl, fun g r hr => (kept rfl g).trans hr, fun _ h => .inl h⟩

/-- Everything in the cache or on its way into it is recorded in the sidecar. -/
structure Backed (s : CompanionStore) (st : TokenState) : Prop where
  distinct : st.tokens.inner.Distinct
  durable : st.tokens.durable = some s
  entries : ∀ hash e, st.tokens.inner.find hash = some e → Recorded s hash e.token
  tasks : ∀ task ∈ st.tasks, Justified s task

theorem Backed.step {s : CompanionStore} {st st' : TokenState} {label : TokenLabel}
    (hb : Backed s st) (h : TokenStep hashSlow st label st') (hkeep : label ≠ .sidecar true) :
    ∃ s', Backed s' st' ∧ Grows s s' := by
  obtain ⟨s', hdurable, hgrow, htasks⟩ := h.sidecar_grows hkeep hb.durable
  refine ⟨s', ⟨h.distinct hb.distinct, hdurable, ?_, ?_⟩, hgrow⟩
  · intro hash e he
    have hinserted (hp : label.inserted = some (hash, e.token)) : Recorded s' hash e.token := by
      obtain ⟨task, htask, htoken⟩ := h.inserted hp
      exact (hb.tasks task htask _ htoken).grow hgrow
    rcases h.inner.token hb.distinct he with ⟨old, hold, htoken⟩ | ⟨number, identity, rfl⟩ | rfl
    · rw [← htoken]
      exact (hb.entries hash old hold).grow hgrow
    · exact hinserted rfl
    · exact hinserted rfl
  · intro task htask p hp
    rcases htasks task htask with hold | hnew
    · exact (hb.tasks task hold p hp).grow hgrow
    · exact hnew p hp

theorem backed_start (s : CompanionStore) (capacity : Nat) (required : Bool) :
    Backed s (.start capacity (some s) required) where
  distinct := distinct_start ..
  durable := rfl
  entries := by rintro hash e ⟨⟩
  tasks := by rintro task ⟨⟩

/-- Along a run without pruning no record changes. -/
theorem Steps.backed {s : CompanionStore} {st st' : TokenState} {ls : List TokenLabel}
    (run : Steps (TokenStep hashSlow) st ls st') (hkeep : TokenLabel.sidecar true ∉ ls)
    (hb : Backed s st) : ∃ s', Backed s' st' ∧ Grows s s' := by
  induction run with
  | nil => exact ⟨s, hb, fun _ _ hr => hr⟩
  | snoc run last ih =>
    obtain ⟨hrun, hlast⟩ := not_or.mp (fun h => hkeep (List.mem_append.mpr h))
    obtain ⟨s1, hb1, hgrow1⟩ := ih hrun
    obtain ⟨s2, hb2, hgrow2⟩ := hb1.step last fun heq => hlast (by simp [heq])
    exact ⟨s2, hb2, fun g r hr => hgrow2 g r (hgrow1 g r hr)⟩

theorem Backed.recorded {s : CompanionStore} {st : TokenState} (hb : Backed s st) {hash : Bytes32}
    {r : StoredAccounting} :
    st.recorded hash = some r ↔ s.getAccounting hash = .ok (some r) := by
  rw [TokenState.recorded, hb.durable, Option.bind_some]
  rcases CompanionStore.getAccounting hash s with e | (_ | r') <;> simp [Res.value?]

/-- What a step returns is recorded. -/
theorem Backed.returned {s : CompanionStore} {st st' : TokenState} {label : TokenLabel}
    {p : Bytes32 × CompletedParent} (hb : Backed s st) (h : TokenStep hashSlow st label st')
    (hp : label.returned = some p) : Recorded s p.1 p.2 := by
  rcases h.returned hp with ⟨task, htask, htoken⟩ | ⟨e, he, htoken⟩
  · exact hb.tasks task htask p htoken
  · rw [← htoken]
    exact hb.entries p.1 e he

end Ureth.Source.Payload
