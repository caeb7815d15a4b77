import Ureth.Foundation.Threshold
import Ureth.Source.Bridge.Compose

/-!
# The meter of a composition

Every charge of a call goes through its meter, also those the lineage relation
makes through the charge it is given. So a call is a threshold in its gas.
-/

namespace Ureth.Source.B2
open Ureth.Foundation

section Lineage

variable {σ : Type} {H : Bytes → Bytes32} {K : K256} {charge : Nat → Run σ Error Unit}
  {Q : ∀ α : Type, Run σ Error α → Prop} (hQ : Run.Sequential Q) (hcharge : ∀ n, Q Unit (charge n))

include hQ hcharge

theorem sequential_chargeU64 (n : Nat) : Q Unit (chargeU64 charge n) := hQ.bind (hQ.lift _) fun n => hcharge n

theorem sequential_descend (j : Bytes) : Q (Proof × Bytes) (descend K charge j) := by
  refine hQ.bind (sequential_chargeU64 hQ hcharge _) fun _ => hQ.bind (hQ.lift _) fun ⟨token, proof, items⟩ => ?_
  refine hQ.bind (sequential_chargeU64 hQ hcharge _) fun _ => hQ.bind (hQ.lift _) fun ⟨proj, leaves⟩ => ?_
  exact hQ.bind (sequential_chargeU64 hQ hcharge _) fun _ => hQ.pure _

theorem sequential_walk (fuel : Nat) (w : Walked) : Q Walked (walk K charge fuel w) := by
  induction fuel generalizing w with
  | zero => exact hQ.lift _
  | succ fuel ih =>
    refine hQ.bind (hQ.lift _) fun cur => hQ.bind (hQ.lift _) fun j => ?_
    split
    · exact hQ.pure _
    · split
      · exact hQ.bind (sequential_descend hQ hcharge j) fun x => ih _
      · exact hQ.lift _

theorem sequential_verifyEdge (w : Walked) (i : Nat) (lv : Verified) (parent : Option Parent) :
    Q Unit (verifyEdge H charge w i lv parent) := by
  refine hQ.bind (hQ.lift _) fun parent => hQ.bind (hQ.lift _) fun proof => ?_
  exact hQ.bind (sequential_chargeU64 hQ hcharge _) fun _ => hQ.lift _

theorem sequential_verifyLevel (cfg : Cfg) (w : Walked) (d i : Nat) (st : VerifyState) :
    Q VerifyState (verifyLevel H K charge cfg w d i st) := by
  refine hQ.bind (hQ.lift _) fun proj => hQ.bind (hQ.lift _) fun x => ?_
  refine hQ.bind ?_ fun _ => hQ.bind (hQ.lift _) fun y => hQ.bind (hQ.lift _) fun out => hQ.pure _
  split
  · exact sequential_verifyEdge hQ hcharge w i x.1 st.parent
  · exact hQ.pure _

theorem sequential_verifyLevels (cfg : Cfg) (w : Walked) (d n : Nat) (st : VerifyState) :
    Q VerifyState (verifyLevels H K charge cfg w d n st) := by
  induction n generalizing st with
  | zero => exact hQ.pure _
  | succ n ih => exact hQ.bind (sequential_verifyLevel hQ hcharge cfg w d n st) fun st => ih st

/-- The lineage relation touches its state by charges only. -/
theorem Lineage.sequential_relation (cfgBytes history : Bytes) :
    Q Outcome (Lineage.relation H K charge cfgBytes history) := by
  refine hQ.bind (hQ.lift _) fun cfg => hQ.bind (hQ.lift _) fun _ => ?_
  refine hQ.bind (hQ.lift _) fun mint => hQ.bind (sequential_chargeU64 hQ hcharge _) fun _ => ?_
  refine hQ.bind (sequential_walk hQ hcharge _ _) fun w => hQ.bind (hQ.lift _) fun d => ?_
  exact hQ.bind (sequential_verifyLevels hQ hcharge cfg w d _ _) fun st => hQ.pure _

end Lineage

end Ureth.Source.B2

namespace Ureth.Source.Bridge
open Ureth.Foundation

section Meter

variable {υ ε : Type} {V : Verdict υ ε} {H : Bytes → Bytes32} {K : K256}

/-- The gauge of a composition is its meter. -/
def gauge (υ : Type) : Gauge (Composition υ) where
  limit c := c.meter.limit
  spent c := c.meter.used
  grant g c := { c with meter := { c.meter with limit := g } }

/-- A call that halts for want of gas below what it spends. -/
abbrev Metered {α : Type} (m : Run (Composition υ) (Stop ε) α) : Prop :=
  Run.Threshold (gauge υ) (.halt .outOfGas) m

/-- A charge of the meter, whatever it reports when the gas does not suffice. -/
theorem threshold_charge {e : Type} {broke : e} {m : Run (Composition υ) e Unit} (gas : Nat)
    (hsome : ∀ c meter, c.meter.charge gas = some meter → m c = (.ok (), { c with meter }))
    (hnone : ∀ c, c.meter.charge gas = none → m c = (Res.fail broke, c)) : Run.Threshold (gauge υ) broke m := by
  intro s r t hrun hle hr
  cases hcharge : s.meter.charge gas with
  | none =>
    rw [hnone s hcharge] at hrun
    exact absurd (Prod.mk.inj hrun).1.symm hr
  | some meter =>
    rw [hsome s meter hcharge] at hrun
    obtain ⟨rfl, rfl⟩ := Prod.mk.inj hrun
    unfold Meter.charge at hcharge
    split at hcharge
    next hfits =>
      obtain rfl := Option.some.inj hcharge
      refine ⟨rfl, Nat.le_add_right _ _, hfits.2, fun g hg => ?_, fun g h1 h2 => ?_⟩
      · exact hsome _ _ (if_pos ⟨hfits.1, hg⟩)
      · rw [hnone]
        exact if_neg fun h => absurd h.2 (Nat.not_le.mpr h2)
    next => cases hcharge

theorem metered_pay (gas : Nat) : Metered (pay gas : Run (Composition υ) (Stop ε) Unit) :=
  threshold_charge gas (fun c meter h => by rw [pay, h]) fun c h => by rw [pay, h]

/-- The charge of the lineage relation is one of the meter. -/
theorem threshold_lineageCharge (gas : Nat) : Run.Threshold (gauge υ) .outOfGas (lineageCharge (ε := ε) gas) := by
  refine threshold_charge gas (fun c meter h => ?_) fun c h => ?_
  · rw [lineageCharge, Run.mapErr, pay, h]
    rfl
  · rw [lineageCharge, Run.mapErr, pay, h]
    rfl

/-- How the outcome of the lineage relation ends the kernel. -/
def lineageResult : Res B2.Error B2.Outcome → Res (Stop ε) B2.Outcome
  | .ok out => .ok out
  | .error (.error e) => lineageStop e
  | .error .panic => Res.panic

theorem metered_lineageKernel (cfg history : Bytes) :
    Metered (lineageKernel H K cfg history : Run (Composition υ) (Stop ε) B2.Outcome) := by
  have hrelation : Run.Threshold (gauge υ) .outOfGas (B2.Lineage.relation H K (lineageCharge (ε := ε)) cfg history) :=
    B2.Lineage.sequential_relation (Run.sequential_threshold _ _) threshold_lineageCharge cfg history
  refine hrelation.translate (g := lineageResult) rfl fun s => ?_
  unfold lineageKernel
  rcases B2.Lineage.relation H K (lineageCharge (ε := ε)) cfg history s with ⟨(_ | _) | _, c⟩ <;> rfl

/-- What an answer of the oracle means for the call. -/
def verdictResult : Except (Halt ε) Bool → Res (Stop ε) Unit
  | .ok true => .ok ()
  | .ok false => Res.fail (.status .anchorAuth)
  | .error h => Res.fail (.halt h)

theorem askVerdict_eq (request : Bytes) (c : Composition υ) :
    askVerdict V request c =
      (verdictResult (V.batch request c.oracle).1, { c with oracle := (V.batch request c.oracle).2 }) := by
  unfold askVerdict
  rcases V.batch request c.oracle with ⟨h | (_ | _), oracle⟩ <;> rfl

/-- The batch verdict spends nothing. -/
theorem metered_askVerdict (request : Bytes) : Metered (askVerdict V request) := by
  intro s r t hrun hle _
  rw [askVerdict_eq] at hrun
  obtain ⟨rfl, rfl⟩ := Prod.mk.inj hrun
  exact Run.settles_of_fixed rfl rfl hle fun g => askVerdict_eq request _

section Parts

variable {Q : ∀ α : Type, Run (Composition υ) (Stop ε) α → Prop} (hQ : Run.Sequential Q)
  (hpay : ∀ gas, Q Unit (pay gas))

include hQ

theorem sequential_kernel (hlineage : ∀ cfg history, Q B2.Outcome (lineageKernel H K cfg history)) (lineage : Bool) (op : Nat)
    (cfg history : Bytes) : Q B2.Outcome (kernel H K lineage op cfg history) := by
  unfold kernel
  split
  · exact hlineage cfg history
  · exact hQ.lift _

include hpay

theorem sequential_payFor (gas : Res (Stop ε) Nat) : Q Unit (payFor gas) := hQ.bind (hQ.lift _) fun gas => hpay gas

theorem sequential_proveLeaves (anchors : List Anchor) (leaves : List (((B2.Leaf × Nat) × LeafProof) × Nat)) :
    Q Unit (proveLeaves H anchors leaves) := by
  induction leaves with
  | nil => exact hQ.pure _
  | cons x rest ih =>
    refine hQ.bind (sequential_payFor hQ hpay _) fun _ => hQ.bind (hQ.lift _) fun anchor => ?_
    exact hQ.bind (hQ.lift _) fun valid => hQ.bind (hQ.lift _) fun _ => ih

theorem sequential_admitCall (call : Call) : Q Admitted (admitCall H call) := by
  refine hQ.bind (hQ.lift _) fun _ => hQ.bind (hQ.lift _) fun cfg => ?_
  refine hQ.bind (sequential_payFor hQ hpay _) fun _ => hQ.bind (hQ.lift _) fun _ => hQ.bind (hQ.lift _) fun env => ?_
  refine hQ.bind (hQ.lift _) fun partition => hQ.bind (sequential_payFor hQ hpay _) fun _ => ?_
  exact hQ.bind (sequential_payFor hQ hpay _) fun _ => hQ.pure _

theorem sequential_discharge (env : Envelope) (outcome : B2.Outcome) (plan steps : List Nat) :
    Q Unit (discharge H env outcome plan steps) := by
  refine hQ.bind (hQ.lift _) fun times => hQ.bind (hQ.lift _) fun _ => ?_
  exact sequential_proveLeaves hQ hpay _ _

theorem sequential_authenticate (hask : ∀ request, Q Unit (askVerdict V request)) (call : Call) (adm : Admitted)
    (outcome : B2.Outcome) : Q (List Nat × List Nat) (authenticate V H call adm outcome) := by
  refine hQ.bind (hQ.lift _) fun plan => hQ.bind (hQ.lift _) fun _ => hQ.bind (hQ.lift _) fun _ => ?_
  refine hQ.bind (sequential_payFor hQ hpay _) fun _ => hQ.bind (hQ.lift _) fun dims => ?_
  refine hQ.bind (sequential_payFor hQ hpay _) fun _ => hQ.bind (hQ.lift _) fun steps => ?_
  exact hQ.bind (hask _) fun _ => hQ.pure _

/-- A call around its body. -/
theorem sequential_callWith {α : Type} {body : Call → Run (Composition υ) (Stop ε) α} (hbody : ∀ call, Q α (body call))
    (input : Bytes) : Q α (callWith body input) := by
  refine hQ.bind (hpay _) fun _ => hQ.bind (hQ.lift _) fun _ => ?_
  exact hQ.bind (hQ.lift _) fun call => hbody call

end Parts

theorem metered_composeOutcome (call : Call) (lineage : Bool) : Metered (composeOutcome V H K call lineage) := by
  have hQ : Run.Sequential fun _ (m : Run (Composition υ) (Stop ε) _) => Metered m := Run.sequential_threshold _ _
  refine hQ.bind (sequential_admitCall hQ metered_pay call) fun adm => ?_
  refine hQ.bind (sequential_kernel hQ metered_lineageKernel lineage _ _ _) fun outcome => ?_
  refine hQ.bind (sequential_authenticate hQ metered_pay metered_askVerdict call adm outcome) fun x => ?_
  exact hQ.bind (sequential_discharge hQ metered_pay _ _ _ _) fun _ => hQ.pure _

/-- A call around a metered body. -/
theorem metered_callWith {α : Type} {body : Call → Run (Composition υ) (Stop ε) α} (hbody : ∀ call, Metered (body call))
    (input : Bytes) : Metered (callWith body input) :=
  sequential_callWith (Run.sequential_threshold _ _) metered_pay hbody input

variable {α : Type} {encode : α → Nat → Bytes} {default : α} {body : Run (Composition υ) (Stop ε) α}

/-- An output, from what it is made of. -/
theorem finish_eq_ok {x : Res (Stop ε) α × Composition υ} {out : Output} {v : υ}
    (h : finish encode default x = (.ok out, v)) :
    out.gas = x.2.meter.used ∧ x.1 ≠ Res.fail (.halt .outOfGas) ∧
      ∀ y : Res (Stop ε) α × Composition υ, y.1 = x.1 → y.2.meter.used = x.2.meter.used → y.2.oracle = x.2.oracle →
        finish encode default y = (.ok out, v) := by
  rcases x with ⟨((s | stop) | _) | f, c⟩
  · obtain ⟨hout, rfl⟩ := Prod.mk.inj h
    obtain rfl := Except.ok.inj hout
    refine ⟨rfl, by simp [Res.fail], ?_⟩
    rintro ⟨r, c'⟩ hr hused horacle
    dsimp only at hr hused horacle
    rw [hr, finish, hused, horacle]
  · cases (Prod.mk.inj h).1
  · cases (Prod.mk.inj h).1
  · obtain ⟨hout, rfl⟩ := Prod.mk.inj h
    obtain rfl := Except.ok.inj hout
    refine ⟨rfl, by simp [Res.fail], ?_⟩
    rintro ⟨r, c'⟩ hr hused horacle
    dsimp only at hr hused horacle
    rw [hr, finish, hused, horacle]

/-- The gas of a metered call is a threshold for its output. -/
theorem finish_threshold (hbody : Metered body) {gas : Nat} {out : Output} {v v' : υ}
    (h : finish encode default (body ⟨⟨gas, 0⟩, v⟩) = (.ok out, v')) :
    out.gas ≤ gas ∧ (∀ g, out.gas ≤ g → finish encode default (body ⟨⟨g, 0⟩, v⟩) = (.ok out, v')) ∧
      ∀ g, g < out.gas → (finish encode default (body ⟨⟨g, 0⟩, v⟩)).1 = Res.fail .outOfGas := by
  obtain ⟨hgas, hpaid, hsame⟩ := finish_eq_ok h
  have hs := hbody ⟨⟨gas, 0⟩, v⟩ _ _ rfl (Nat.zero_le _) hpaid
  rw [hgas]
  refine ⟨hs.within, fun g hg => ?_, fun g hg => ?_⟩
  · have hrun : body ⟨⟨g, 0⟩, v⟩ = ((body ⟨⟨gas, 0⟩, v⟩).1, (gauge υ).grant g (body ⟨⟨gas, 0⟩, v⟩).2) := hs.enough g hg
    rw [hrun]
    exact hsame _ rfl rfl rfl
  · have hrun : (body ⟨⟨g, 0⟩, v⟩).1 = Res.fail (.halt .outOfGas) := hs.short g (Nat.zero_le _) hg
    rcases hbody' : body ⟨⟨g, 0⟩, v⟩ with ⟨r, c⟩
    rw [hbody'] at hrun
    obtain rfl : r = _ := hrun
    rfl

end Meter

end Ureth.Source.Bridge
