import Ureth.Source.B2.LineageSpec

/-!
# The walk ends, and what it pushes decodes

Each iteration of the part-to-root loop reads a justification inside the current
history, and pushes a history no longer than the token inside that justification.
The lengths therefore decrease, and the fuel of `walk` is never used up. A pushed
history is built from the item bytes of its token, so reading it back gives the
token's own transactions and certification data.
-/

namespace Ureth.Source.B2
open Ureth.Foundation
open Ureth.Foundation.Cbor (Value)
open Cbor (Item Items)
open Ureth.Source.B1.Cbor (usizeMax usizeMax_lt Scannable)
open B1.Cbor (itemOf array_itemOf)

section Loop

variable {σ : Type} (K : K256) (charge : Nat → Run σ Error Unit)

/-- One iteration of the loop: nothing at a lock reason, or the split justification it descended
into and what it then holds. -/
def iteration (w : Walked) : Run σ Error (Option (Bytes × Walked)) := do
  let cur ← Run.lift (Res.unwrap w.projs.getLast?)
  let j ← Run.lift (mintJustification cur)
  if justificationTag j = some tagLock then return none
  else if justificationTag j = some tagSplit then do
    let (proof, proj) ← descend K charge j
    return some (j, { proofs := w.proofs ++ [proof], projs := w.projs ++ [proj] })
  else Run.fail .mintJustif

/-- The loop run to its end, without fuel: the justifications it descended into, in order, and
its outcome. -/
inductive Iterates : Walked → σ → List Bytes → Res Error Walked × σ → Prop where
  | lock {w : Walked} {s s' : σ} (h : iteration K charge w s = (.ok none, s')) :
      Iterates w s [] (.ok w, s')
  | stop {w : Walked} {s s' : σ} {e : Fault Error} (h : iteration K charge w s = (.error e, s')) :
      Iterates w s [] (.error e, s')
  | split {w w' : Walked} {s s' : σ} {j : Bytes} {js : List Bytes} {r : Res Error Walked × σ}
      (h : iteration K charge w s = (.ok (some (j, w')), s')) (hrest : Iterates w' s' js r) :
      Iterates w s (j :: js) r

/-- `j'` is the justification read after descending into `j`. -/
def Below (j j' : Bytes) : Prop :=
  ∃ token proof items proj leaves, openSplit j = .ok (token, proof, items) ∧
    project K token = .ok (proj, leaves) ∧ mintJustification proj = .ok j'

variable {K charge}

/-- The walk is its iteration, once for each unit of fuel. -/
theorem walk_succ (fuel : Nat) (w : Walked) (s : σ) :
    (∃ e s', iteration K charge w s = (.error e, s') ∧ walk K charge (fuel + 1) w s = (.error e, s')) ∨
    (∃ s', iteration K charge w s = (.ok none, s') ∧ walk K charge (fuel + 1) w s = (.ok w, s')) ∨
    ∃ j w' s', iteration K charge w s = (.ok (some (j, w')), s') ∧
      walk K charge (fuel + 1) w s = walk K charge fuel w' s' := by
  rcases hc : (Res.unwrap w.projs.getLast? : Res Error Bytes) with e | cur
  · simp [walk, iteration, Run.bind_apply, hc]
  rcases hj : mintJustification cur with e | j
  · simp [walk, iteration, Run.bind_apply, hc, hj]
  by_cases hlock : justificationTag j = some tagLock
  · simp [walk, iteration, Run.bind_apply, hc, hj, hlock]
  by_cases hsplit : justificationTag j = some tagSplit
  · rcases hd : descend K charge j s with ⟨e | ⟨proof, proj⟩, t⟩
    · simp [walk, iteration, Run.bind_apply, hc, hj, hsplit, hd, tagLock, tagSplit]
    · simp [walk, iteration, Run.bind_apply, hc, hj, hsplit, hd, tagLock, tagSplit]
  · simp [walk, iteration, Run.bind_apply, Run.fail, Res.fail, hc, hj, hlock, hsplit]

/-- What an iteration that descends pushes. -/
theorem iteration_split {w w' : Walked} {s s' : σ} {j cur : Bytes}
    (h : iteration K charge w s = (.ok (some (j, w')), s')) (hcur : w.projs.getLast? = some cur) :
    ∃ token proof items proj leaves, mintJustification cur = .ok j ∧
      openSplit j = .ok (token, proof, items) ∧ project K token = .ok (proj, leaves) ∧
      w'.projs.getLast? = some proj := by
  simp only [iteration, Run.bind_eq_ok, Run.lift_apply, Prod.mk.injEq, Res.unwrap_eq_ok] at h
  obtain ⟨cur', _, ⟨hcur', rfl⟩, j', _, ⟨hj, rfl⟩, h⟩ := h
  obtain rfl : cur = cur' := Option.some.inj (hcur.symm.trans hcur')
  split at h
  · simp at h
  · split at h
    · simp only [Run.bind_eq_ok, Run.pure_eq_ok, Option.some.injEq, Prod.mk.injEq] at h
      obtain ⟨⟨proof, proj⟩, t, hdesc, ⟨rfl, rfl⟩, rfl⟩ := h
      obtain ⟨token, items, leaves, hopen, hproj⟩ := descend_ok hdesc
      exact ⟨token, proof, items, proj, leaves, hj, hopen, hproj, by simp⟩
    · simp [Run.fail] at h

/-! ## The lengths decrease -/

/-- A history's justification is part of its mint. -/
theorem mintJustification_length_lt {cur j : Bytes} (h : mintJustification cur = .ok j) :
    j.length < cur.length := by
  simp only [mintJustification, Res.bind_eq_ok, Res.mapErr_eq_ok] at h
  obtain ⟨p, hp, v, hv, g, hg, m, hm, hj⟩ := h
  obtain ⟨t, hacc, rfl, rfl, hle⟩ := (Cbor.one_eq_ok usizeMax_lt).mp hp
  have ht : Scannable t := hacc.scannable (lt_of_le_of_lt hle usizeMax_lt)
  obtain ⟨ts, rfl, hlen, hvs⟩ := (Cbor.array_itemOf ht).mp hv
  obtain ⟨mint, txs, rfl⟩ := List.length_eq_two.mp hlen
  have hv0 := FieldList.getElem_of_toList hvs 0 (by omega)
  simp only [List.map_cons, List.getElem?_cons_zero, Option.some.injEq] at hv0
  have hmint : Scannable mint := ht.kid (by simp)
  rw [← hv0] at hg
  obtain ⟨gs, rfl, hglen, hgs⟩ := (Cbor.array_itemOf hmint).mp hg
  obtain ⟨g0, c, time, rfl⟩ := List.length_eq_three.mp hglen
  have hg0 := FieldList.getElem_of_toList hgs 0 (by omega)
  simp only [List.map_cons, List.getElem?_cons_zero, Option.some.injEq] at hg0
  have hscan : Scannable g0 := hmint.kid (by simp)
  rw [← hg0] at hm
  obtain ⟨ms, rfl, -, hms, -⟩ := (Cbor.tagged_itemOf hscan (by omega)).mp hm
  have hm5 := FieldList.getElem_of_toList hms 5 (by omega)
  rw [List.getElem?_map] at hm5
  obtain ⟨u, hu, hitem⟩ := Option.map_eq_some_iff.mp hm5
  rw [← hitem, Cbor.blob_itemOf] at hj
  obtain ⟨rfl, -⟩ := hj
  calc j.length
      < (Value.bytes j).encode.length := Value.length_content_lt (.bytes j)
    _ < (Value.array ms).encode.length := Value.length_encode_kid_lt (List.mem_of_getElem? hu)
    _ < (Value.tag 39041 (.array ms)).encode.length :=
        Value.length_encode_kid_lt (by simp)
    _ < (Value.array [.tag 39041 (.array ms), c, time]).encode.length :=
        Value.length_encode_kid_lt (by simp)
    _ < (Value.array [.array [.tag 39041 (.array ms), c, time], txs]).encode.length :=
        Value.length_encode_kid_lt (by simp)

/-- What is pushed is shorter than the justification it comes from. -/
theorem project_length_lt {j proj : Bytes} {token : NativeItem} {proof : Proof} {items leaves : Nat}
    (hopen : openSplit j = .ok (token, proof, items)) (hproj : project K token = .ok (proj, leaves)) :
    proj.length < j.length := by
  obtain ⟨t, ht, rfl, hlt, -⟩ := openSplit_ok hopen
  obtain ⟨mint, qs, rfl, hof, -⟩ := project_ok ht hproj
  exact lt_of_le_of_lt hof.length_le hlt

theorem Below.length_lt {j j' : Bytes} (h : Below K j j') : j'.length < j.length := by
  obtain ⟨token, proof, items, proj, leaves, hopen, hproj, hj⟩ := h
  exact (mintJustification_length_lt hj).trans (project_length_lt hopen hproj)

namespace Iterates

variable {w : Walked} {s : σ} {js : List Bytes} {r : Res Error Walked × σ} {cur : Bytes}

/-- The first justification descended into is that of the current history. -/
theorem head (h : Iterates K charge w s js r) (hcur : w.projs.getLast? = some cur) :
    ∀ j ∈ js.head?, mintJustification cur = .ok j := by
  cases h with
  | lock _ => simp
  | stop _ => simp
  | split h _ =>
    obtain ⟨_, _, _, _, _, hj, -⟩ := iteration_split h hcur
    simpa using hj

/-- Each justification is read after descending into the one before. -/
theorem chain (h : Iterates K charge w s js r) (hcur : w.projs.getLast? = some cur) :
    js.IsChain (Below K) := by
  induction h generalizing cur with
  | lock _ => exact .nil
  | stop _ => exact .nil
  | split h hrest ih =>
    obtain ⟨token, proof, items, proj, leaves, -, hopen, hproj, hlast⟩ := iteration_split h hcur
    refine List.isChain_cons.mpr ⟨?_, ih hlast⟩
    intro j' hj'
    exact ⟨token, proof, items, proj, leaves, hopen, hproj, hrest.head hlast j' hj'⟩

/-- There are no more iterations than the current history has bytes. -/
theorem length_le (h : Iterates K charge w s js r) (hcur : w.projs.getLast? = some cur) :
    js.length ≤ cur.length := by
  induction h generalizing cur with
  | lock _ => simp
  | stop _ => simp
  | split h hrest ih =>
    obtain ⟨token, proof, items, proj, leaves, hj, hopen, hproj, hlast⟩ := iteration_split h hcur
    have hle := ih hlast
    have h1 := mintJustification_length_lt hj
    have h2 := project_length_lt hopen hproj
    rw [List.length_cons]
    omega

end Iterates

/-- With more fuel than the current history has bytes the walk is a run of the loop to its end. -/
theorem walk_iterates {fuel : Nat} {w : Walked} (s : σ) {cur : Bytes}
    (hcur : w.projs.getLast? = some cur) (hfuel : cur.length < fuel) :
    ∃ js, Iterates K charge w s js (walk K charge fuel w s) := by
  induction fuel generalizing w s cur with
  | zero => omega
  | succ fuel ih =>
    rcases @walk_succ σ K charge fuel w s with
      ⟨e, s', hit, hwalk⟩ | ⟨s', hit, hwalk⟩ | ⟨j, w', s', hit, hwalk⟩
    · exact ⟨[], hwalk ▸ .stop hit⟩
    · exact ⟨[], hwalk ▸ .lock hit⟩
    · obtain ⟨token, proof, items, proj, leaves, hj, hopen, hproj, hlast⟩ := iteration_split hit hcur
      have h1 := mintJustification_length_lt hj
      have h2 := project_length_lt hopen hproj
      obtain ⟨js, hjs⟩ := ih s' hlast (by omega)
      exact ⟨j :: js, hwalk ▸ .split hit hjs⟩

end Loop

/-! ## Reading a projection back -/

section Projection

variable {K : K256}

/-- `x` is the item of a transaction of the token's pair `p`, decoded to `a`; `cert` and `t` are the
certification data and the reference time of the pair's inclusion proof. -/
def ReadFrom (K : K256) {α : Type} (decode : Item → Res Error α) (p : NativeItem) (x : Item) (a : α)
    (cert : Cd) (t : Nat) : Prop :=
  ∃ pair cd c, p.array 2 = .ok pair ∧ inclusion K pair[1] = .ok (cd, t) ∧
    Cbor.one pair[0].raw (.nativeMode Items.max) = .ok x ∧ x.raw = pair[0].raw ∧ decode x = .ok a ∧
    Cbor.one cd.raw (.nativeMode Items.max) = .ok c ∧ c.raw = cd.raw ∧ cdStrict K c = .ok cert

/-- The certification data an inclusion proof was accepted with. -/
theorem inclusion_reads {i cd : NativeItem} {t : Nat} (h : inclusion K i = .ok (cd, t)) :
    ∃ c cert, Cbor.one cd.raw (.nativeMode Items.max) = .ok c ∧ cdStrict K c = .ok cert := by
  simp only [inclusion, Res.bind_eq_ok, Res.refuse_eq_ok, exists_const, Res.mapErr_eq_ok,
    Res.pure_eq_ok, Prod.mk.injEq] at h
  obtain ⟨-, -, f, -, c, hc, cert, hcert, _, -, _, -, -, -, _, -, rfl, -⟩ := h
  exact ⟨c, cert, hc, hcert⟩

/-- A triple of the compact form, read back as the fields of the pair it was made of. -/
theorem Projects.reads {α : Type} {decode : Item → Res Error α} {p q : Value} (h : Projects K decode p q)
    (hq : Scannable q) :
    ∃ v a cert time, (Cbor.itemOf q).array 3 = .ok v ∧ decode v[0] = .ok a ∧
      cdStrict K v[1] = .ok cert ∧ v[2].uint u64Max = .ok time ∧
      ReadFrom K decode (itemOf p) v[0] a cert time := by
  obtain ⟨tx, version, u, time, path, uc, pair, a, -, rfl, hpair, hp0, hincl, hx, ha⟩ := h
  obtain ⟨c, cert, hc, hcert⟩ := inclusion_reads hincl
  have hu : Scannable u := hq.kid (by simp)
  have htime : Scannable (.uint time) := hq.kid (by simp)
  obtain rfl : c = Cbor.itemOf u := item_of_one (by decide) hu hc
  obtain ⟨v, hv⟩ : ∃ v, (Cbor.itemOf (.array [tx, u, .uint time])).array 3 = .ok v :=
    ⟨⟨[Cbor.itemOf tx, Cbor.itemOf u, Cbor.itemOf (.uint time)], rfl⟩,
      (Cbor.array_itemOf hq).mpr ⟨_, rfl, rfl, rfl⟩⟩
  obtain ⟨_, hts, -, hvs⟩ := (Cbor.array_itemOf hq).mp hv
  obtain rfl := Value.array.inj hts
  have h0 : v[0] = Cbor.itemOf tx := by
    simpa using (FieldList.getElem_of_toList hvs 0 (by omega)).symm
  have h1 : v[1] = Cbor.itemOf u := by
    simpa using (FieldList.getElem_of_toList hvs 1 (by omega)).symm
  have h2 : v[2] = Cbor.itemOf (.uint time) := by
    simpa using (FieldList.getElem_of_toList hvs 2 (by omega)).symm
  refine ⟨v, a, cert, time, hv, ?_⟩
  rw [h0, h1, h2, Cbor.uint_itemOf]
  refine ⟨ha, hcert, ⟨rfl, ?_⟩, pair, _, _, hpair, hincl, ?_, ?_, ha, hc, rfl, hcert⟩
  · have hlt : time < 2 ^ 64 := htime.fits.root.1
    simp only [u64Max, usizeMax]
    omega
  · rw [hp0]
    exact hx
  · rw [hp0]
    rfl

/-- The projected transfers, read back in order. -/
theorem decodeTuples_read {ps qs : List Value} (hqs : ∀ q ∈ qs, Scannable q)
    (h : List.Forall₂ (Projects K (transferStrict K)) ps qs) :
    ∃ trs, Res.collect (decodeTuple K) (qs.map Cbor.itemOf) = .ok trs ∧
      List.Forall₂ (fun p tr => ∃ x, tr.tx.raw = x.raw ∧
        ReadFrom K (transferStrict K) p x tr.tx tr.cert tr.t) (ps.map itemOf) trs := by
  induction h with
  | nil => exact ⟨[], rfl, .nil⟩
  | @cons p q ps qs hpq _ ih =>
    have hq := hqs q (by simp)
    obtain ⟨v, tx, cert, time, hv, htx, hcert, htime, hread⟩ := hpq.reads hq
    obtain ⟨trs, htrs, hrest⟩ := ih fun q hq => hqs q (by simp [hq])
    have hraw := (transfer_ok (Cbor.Scanned.array ⟨q, hq, rfl⟩ hv 0 (by omega)) (transferStrict_ok htx)).raw
    refine ⟨⟨tx, cert, time⟩ :: trs, ?_, .cons ⟨v[0], hraw, hread⟩ hrest⟩
    simp [Res.collect, decodeTuple, hv, htx, hcert, htime, htrs]

/-- A projection that scans decodes, to the transactions, the certification data and the reference
times of its token. -/
theorem project_reads {token : NativeItem} (htoken : B1.Cbor.Scanned token) {proj : Bytes} {leaves : Nat}
    (h : project K token = .ok (proj, leaves)) {items : Items} (hword : items.cap < 2 ^ 64) {it : Item}
    (hit : Cbor.one proj items = .ok it) :
    ∃ parts kids hist, openToken token = .ok parts ∧ parts[2].children = (.ok kids : Res Error _) ∧
      decodeFields K it u64Max = .ok hist ∧
      ReadFrom K (decodeMint K) parts[1] hist.mintItem hist.mint hist.cd0 hist.t0 ∧
      List.Forall₂ (fun p tr => ∃ x, tr.tx.raw = x.raw ∧
        ReadFrom K (transferStrict K) p x tr.tx tr.cert tr.t) kids hist.transfers ∧
      hist.count = hist.transfers.length ∧ leaves = 1 + hist.count := by
  obtain ⟨t, ht, rfl⟩ := htoken
  obtain ⟨mint, qs, rfl, hof, rfl⟩ := project_ok ht h
  obtain ⟨u, hacc, hbytes, rfl, hcount⟩ := (Cbor.one_eq_ok hword).mp hit
  have hu : Scannable u := hacc.scannable (lt_of_le_of_lt hcount hword)
  obtain rfl := Value.encode_inj (hof.fits ht) hu.fits hbytes
  obtain ⟨version, genesis, ps, parts, rfl, hparts, h1, h2, hmint, hall⟩ := hof
  have hscanMint : Scannable mint := hu.kid (by simp)
  have hscanTxs : Scannable (.array qs) := hu.kid (by simp)
  have hinner : Scannable (.array [version, genesis, .array ps]) := ht.kid (by simp)
  have hps : Scannable (.array ps) := hinner.kid (by simp)
  obtain ⟨g, m, cert, time, hg, hm, hcert, htime, hread⟩ := hmint.reads hscanMint
  have hqs : ∀ q ∈ qs, Scannable q := fun q hq => hscanTxs.kid (t := .array qs) hq
  obtain ⟨trs, htrs, hreads⟩ := decodeTuples_read hqs hall
  have hlen : trs.length = qs.length := by
    rw [Res.collect_length htrs, List.length_map]
  obtain ⟨v, hv⟩ : ∃ v, (Cbor.itemOf (.array [mint, .array qs])).array 2 = .ok v :=
    ⟨⟨[Cbor.itemOf mint, Cbor.itemOf (.array qs)], rfl⟩,
      (Cbor.array_itemOf hu).mpr ⟨_, rfl, rfl, rfl⟩⟩
  obtain ⟨_, hts, -, hvs⟩ := (Cbor.array_itemOf hu).mp hv
  obtain rfl := Value.array.inj hts
  have hv0 : v[0] = Cbor.itemOf mint := by
    simpa using (FieldList.getElem_of_toList hvs 0 (by omega)).symm
  have hv1 : v[1] = Cbor.itemOf (.array qs) := by
    simpa using (FieldList.getElem_of_toList hvs 1 (by omega)).symm
  have hcount : (Cbor.itemOf (.array qs)).count u64Max = .ok qs.length := by
    have hlt : qs.length < 2 ^ 64 := hscanTxs.fits.root.1
    refine Cbor.count_itemOf.mpr ⟨qs, rfl, rfl, ?_⟩
    simp only [u64Max, usizeMax]
    omega
  refine ⟨parts, ps.map itemOf, ⟨qs.length, g[0], m, cert, time, trs⟩, hparts, ?_, ?_, ?_, hreads,
    hlen.symm, rfl⟩
  · rw [h2, B1.Cbor.children_itemOf hps (by simp) (by simp)]
    rfl
  · simp [decodeFields, hv, hv0, hv1, hg, hcount, hm, hcert, htime, Cbor.children_array hscanTxs, htrs]
  · rw [h1]
    exact hread

end Projection

end Ureth.Source.B2
