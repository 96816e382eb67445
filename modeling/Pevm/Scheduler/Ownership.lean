import Mathlib.Data.List.Nodup
import Mathlib.Tactic.Simps.Basic
import Pevm.Lib.Transition
import Pevm.Scheduler

/-!
# Who is in charge of a transaction

What the statuses and the lists of dependents are for: they pass the transactions from
one worker to another. A worker that finishes an execution keeps the transaction to
itself until all its dependents are resumed and the status is set. The counters, which
only say where to look next, do not occur here.
-/
namespace Pevm
open Transition

/-- What a worker is in charge of, as the statuses show it. -/
inductive Charge
  | free
  | executes (version : TxVersion)
  /-- The execution is being finished; there may be dependents left. -/
  | drains (version : TxVersion)
  | drained (version : TxVersion)
  | aborts (version : TxVersion)
  deriving DecidableEq, Repr

namespace Charge

/-- The version that is in execution, up to the end of `finish_execution`. -/
def execution : Charge → Option TxVersion
  | .executes v | .drains v | .drained v => some v
  | .free | .aborts _ => none

/-- The version whose abort has succeeded. -/
def abortion : Charge → Option TxVersion
  | .aborts v => some v
  | _ => none

/-- The worker keeps everybody else from the status of `j`, as `finish_execution` does. -/
def Locks (c : Charge) (j : ℕ) : Prop :=
  match c with
  | .drains v | .drained v => v.txIdx = j
  | .free | .executes _ | .aborts _ => False

instance (c : Charge) (j : ℕ) : Decidable (c.Locks j) :=
  match c with
  | .drains v | .drained v => inferInstanceAs (Decidable (v.txIdx = j))
  | .free | .executes _ | .aborts _ => isFalse id

end Charge

/-- The state of every transaction, the workers in charge, and the executions handed out. -/
structure Board (W : Type) where
  blockSize : ℕ
  status : ℕ → TxStatus
  dependents : ℕ → List ℕ
  charge : W → Charge
  handedOut : List TxVersion

namespace Board
variable {W : Type}

/-- The current incarnation has been executed and has not been aborted since. -/
def Done (σ : Board W) (j : ℕ) : Prop :=
  (σ.status j).status = .executed ∨ (σ.status j).status = .validated

/-- Some worker keeps everybody else from the status of `j`. -/
def Locked (σ : Board W) (j : ℕ) : Prop := ∃ w, (σ.charge w).Locks j

/-- The version has been handed out, now or before. -/
def Begun (σ : Board W) (v : TxVersion) : Prop :=
  v.txIncarnation < (σ.status v.txIdx).incarnation ∨
    v.txIncarnation = (σ.status v.txIdx).incarnation ∧
      (σ.status v.txIdx).status ≠ .readyToExecute

section Calls
variable [DecidableEq W]

@[simps]
def assign (σ : Board W) (w : W) (c : Charge) : Board W :=
  { σ with charge := Function.update σ.charge w c }

/-- Another status of a transaction, whose incarnation stays. -/
@[simps]
def setStatus (σ : Board W) (j : ℕ) (status : IncarnationStatus) : Board W :=
  { σ with status := Function.update σ.status j { σ.status j with status } }

/-- The next incarnation of a transaction is ready to be executed. -/
@[simps]
def setReady (σ : Board W) (j : ℕ) : Board W :=
  { σ with
    status := Function.update σ.status j ⟨(σ.status j).incarnation + 1, .readyToExecute⟩ }

@[simps]
def withDependents (σ : Board W) (b : ℕ) (deps : List ℕ) : Board W :=
  { σ with dependents := Function.update σ.dependents b deps }

@[simps]
def hand (σ : Board W) (v : TxVersion) : Board W := { σ with handedOut := v :: σ.handedOut }

/-- What may happen to a transaction, by one access of one worker. -/
inductive Step : Board W → Board W → Prop
  | take {σ : Board W} {w : W} {v : TxVersion} : σ.charge w = .free → v.txIdx < σ.blockSize →
      σ.status v.txIdx = ⟨v.txIncarnation, .readyToExecute⟩ →
      Step σ (((σ.setStatus v.txIdx .executing).assign w (.executes v)).hand v)
  | park {σ : Board W} {w : W} {v : TxVersion} {b : ℕ} : σ.charge w = .executes v →
      b < v.txIdx → ¬ σ.Done b → ¬ σ.Locked b →
      Step σ (((σ.setStatus v.txIdx .aborting).withDependents b
        (σ.dependents b ++ [v.txIdx])).assign w .free)
  | give {σ : Board W} {w : W} {v : TxVersion} : σ.charge w = .executes v →
      Step σ (σ.assign w .free)
  | lock {σ : Board W} {w : W} {v : TxVersion} : σ.charge w = .executes v →
      Step σ (σ.assign w (.drains v))
  | resume {σ : Board W} {w : W} {v : TxVersion} {d : ℕ} {deps : List ℕ} :
      σ.charge w = .drains v → σ.dependents v.txIdx = d :: deps →
      Step σ ((σ.withDependents v.txIdx deps).setReady d)
  | drain {σ : Board W} {w : W} {v : TxVersion} : σ.charge w = .drains v →
      σ.dependents v.txIdx = [] → Step σ (σ.assign w (.drained v))
  | finish {σ : Board W} {w : W} {v : TxVersion} : σ.charge w = .drained v →
      Step σ ((σ.setStatus v.txIdx .executed).assign w .free)
  | validate {σ : Board W} {j : ℕ} : (σ.status j).status = .executed →
      Step σ (σ.setStatus j .validated)
  | abort {σ : Board W} {w : W} {v : TxVersion} : σ.charge w = .free → σ.Done v.txIdx →
      Step σ ((σ.setStatus v.txIdx .aborting).assign w (.aborts v))
  | ready {σ : Board W} {w : W} {v : TxVersion} : σ.charge w = .aborts v →
      Step σ ((σ.setReady v.txIdx).assign w .free)

/-- All transactions are ready for their first incarnation, and no worker is in charge of any. -/
def system (W : Type) [DecidableEq W] (blockSize : ℕ) : TransitionSystem (Board W) where
  init σ := σ.blockSize = blockSize ∧ (∀ j, σ.status j = ⟨0, .readyToExecute⟩) ∧
    (∀ b, σ.dependents b = []) ∧ (∀ w, σ.charge w = .free) ∧ σ.handedOut = []
  step := Step

end Calls

/-- What holds between any two accesses: who is in charge of a transaction, what its status is, and
that nobody else is. -/
structure Invariant (σ : Board W) : Prop where
  execution : ∀ w v, (σ.charge w).execution = some v →
    v.txIdx < σ.blockSize ∧ σ.status v.txIdx = ⟨v.txIncarnation, .executing⟩
  executionUnique : ∀ w w' v v', (σ.charge w).execution = some v →
    (σ.charge w').execution = some v' → v.txIdx = v'.txIdx → w = w'
  drained : ∀ w v, σ.charge w = .drained v → σ.dependents v.txIdx = []
  abortion : ∀ w v, (σ.charge w).abortion = some v →
    (σ.status v.txIdx).status = .aborting ∧ ∀ b, v.txIdx ∉ σ.dependents b
  abortionUnique : ∀ w w' v v', (σ.charge w).abortion = some v →
    (σ.charge w').abortion = some v' → v.txIdx = v'.txIdx → w = w'
  parked : ∀ b j, j ∈ σ.dependents b → b < j ∧ j < σ.blockSize ∧
    (σ.status j).status = .aborting ∧ ¬ σ.Done b
  parkedUnique : ∀ b b' j, j ∈ σ.dependents b → j ∈ σ.dependents b' → b = b'
  parkedNodup : ∀ b, (σ.dependents b).Nodup
  handed : σ.handedOut.Nodup
  begun : ∀ v ∈ σ.handedOut, σ.Begun v

section Preservation
variable {σ : Board W} {w : W} {v : TxVersion}

/-- A transaction that is neither executing nor aborting is in nobody's hands. -/
lemma Invariant.unheld (h : Invariant σ) {j : ℕ} (hexecuting : (σ.status j).status ≠ .executing)
    (haborting : (σ.status j).status ≠ .aborting) :
    (∀ w v, (σ.charge w).execution = some v → v.txIdx ≠ j) ∧
      (∀ w v, (σ.charge w).abortion = some v → v.txIdx ≠ j) ∧ ∀ b, j ∉ σ.dependents b := by
  refine ⟨?_, ?_, ?_⟩
  · rintro w v hw rfl
    rw [(h.execution w v hw).2] at hexecuting
    exact hexecuting rfl
  · rintro w v hw rfl
    exact haborting (h.abortion w v hw).1
  · intro b hb
    exact haborting (h.parked b j hb).2.2.1

lemma Invariant.execution_other (h : Invariant σ) (hw : (σ.charge w).execution = some v) :
    ∀ w' v', (σ.charge w').execution = some v' → v'.txIdx = v.txIdx → w' = w :=
  fun w' v' hw' heq => h.executionUnique w' w v' v hw' hw heq

lemma Invariant.abortion_other (h : Invariant σ) (hw : (σ.charge w).abortion = some v) :
    ∀ w' v', (σ.charge w').abortion = some v' → v'.txIdx = v.txIdx → w' = w :=
  fun w' v' hw' heq => h.abortionUnique w' w v' v hw' hw heq

attribute [local grind =] Function.update_apply
attribute [local grind] Charge.execution Charge.abortion

lemma Invariant.validate (h : Invariant σ) {j : ℕ} (hj : (σ.status j).status = .executed) :
    Invariant (σ.setStatus j .validated) := by
  obtain ⟨hE, hA, hP⟩ := h.unheld (j := j) (by simp [hj]) (by simp [hj])
  constructor
  all_goals dsimp only [setStatus, Done, Begun]
  case execution => grind [→ h.execution]
  case executionUnique => exact h.executionUnique
  case drained => exact h.drained
  case abortion => grind [→ h.abortion]
  case abortionUnique => exact h.abortionUnique
  case parked => grind [→ h.parked, Done]
  case parkedUnique => exact h.parkedUnique
  case parkedNodup => exact h.parkedNodup
  case handed => exact h.handed
  case begun => grind [→ h.begun, Begun]

lemma Invariant.resume (h : Invariant σ) {d : ℕ} {deps : List ℕ}
    (hdeps : σ.dependents v.txIdx = d :: deps) :
    Invariant ((σ.withDependents v.txIdx deps).setReady d) := by
  obtain ⟨hlt, hd, haborting, -⟩ := h.parked v.txIdx d (by simp [hdeps])
  have hnodup : d ∉ deps ∧ deps.Nodup := List.nodup_cons.mp (hdeps ▸ h.parkedNodup v.txIdx)
  have honly : ∀ b, d ∈ σ.dependents b → b = v.txIdx := by
    intro b hb
    exact h.parkedUnique b v.txIdx d hb (by simp [hdeps])
  constructor
  all_goals dsimp only [withDependents, setReady, Done, Begun]
  case execution => grind [→ h.execution]
  case executionUnique => exact h.executionUnique
  case drained => grind [h.drained]
  case abortion => grind [→ h.abortion]
  case abortionUnique => exact h.abortionUnique
  case parked => grind [→ h.parked, Done]
  case parkedUnique => grind [→ h.parkedUnique]
  case parkedNodup => grind [h.parkedNodup]
  case handed => exact h.handed
  case begun => grind [→ h.begun, Begun]

variable [DecidableEq W]

lemma Invariant.take (h : Invariant σ) (hv : v.txIdx < σ.blockSize)
    (hready : σ.status v.txIdx = ⟨v.txIncarnation, .readyToExecute⟩) :
    Invariant (((σ.setStatus v.txIdx .executing).assign w (.executes v)).hand v) := by
  obtain ⟨hE, hA, hP⟩ := h.unheld (j := v.txIdx) (by simp [hready]) (by simp [hready])
  have hnew : v ∉ σ.handedOut := by
    intro hmem
    have hbegun := h.begun v hmem
    simp [Begun, hready] at hbegun
  constructor
  all_goals dsimp only [hand, assign, setStatus, Done, Begun]
  case execution => grind [→ h.execution]
  case executionUnique => grind [→ h.executionUnique]
  case drained => grind [h.drained]
  case abortion => grind [→ h.abortion]
  case abortionUnique => grind [→ h.abortionUnique]
  case parked => grind [→ h.parked, Done]
  case parkedUnique => exact h.parkedUnique
  case parkedNodup => exact h.parkedNodup
  case handed => exact List.nodup_cons.mpr ⟨hnew, h.handed⟩
  case begun => grind [→ h.begun, Begun]

lemma Invariant.park (h : Invariant σ) {b : ℕ} (hw : σ.charge w = .executes v) (hlt : b < v.txIdx)
    (hdone : ¬ σ.Done b) (hlocked : ¬ σ.Locked b) :
    Invariant (((σ.setStatus v.txIdx .aborting).withDependents b
      (σ.dependents b ++ [v.txIdx])).assign w .free) := by
  obtain ⟨hv, hstatus⟩ := h.execution w v (by rw [hw]; rfl)
  have hother := h.execution_other (w := w) (v := v) (by rw [hw]; rfl)
  have hnot : ∀ w' v', σ.charge w' = .drained v' → v'.txIdx ≠ b := by
    intro w' v' hw' hb
    exact hlocked ⟨w', by simpa [hw', Charge.Locks] using hb⟩
  have hP : ∀ b', v.txIdx ∉ σ.dependents b' := by
    intro b' hb'
    have haborting := (h.parked b' _ hb').2.2.1
    simp [hstatus] at haborting
  have hA : ∀ w' v', (σ.charge w').abortion = some v' → v'.txIdx ≠ v.txIdx := by
    intro w' v' hw' heq
    have haborting := (h.abortion w' v' hw').1
    simp [heq, hstatus] at haborting
  constructor
  all_goals dsimp only [withDependents, assign, setStatus, Done, Begun]
  case execution => grind [→ h.execution]
  case executionUnique => grind [→ h.executionUnique]
  case drained => grind [h.drained]
  case abortion => grind [→ h.abortion]
  case abortionUnique => grind [→ h.abortionUnique]
  case parked => grind [→ h.parked, Done]
  case parkedUnique => grind [→ h.parkedUnique]
  case parkedNodup => grind [h.parkedNodup]
  case handed => exact h.handed
  case begun => grind [→ h.begun, Begun]

/-- What a worker is in charge of may shrink, and grow by an empty list of dependents. -/
lemma Invariant.recharge (h : Invariant σ) {c : Charge}
    (hexecution : ∀ v, c.execution = some v → (σ.charge w).execution = some v)
    (habortion : ∀ v, c.abortion = some v → (σ.charge w).abortion = some v)
    (hdrained : ∀ v, c = .drained v → σ.dependents v.txIdx = []) : Invariant (σ.assign w c) := by
  constructor
  all_goals dsimp only [assign, Done, Begun]
  case execution => grind [→ h.execution]
  case executionUnique => grind [→ h.executionUnique]
  case drained => grind [h.drained]
  case abortion => grind [→ h.abortion]
  case abortionUnique => grind [→ h.abortionUnique]
  case parked => exact h.parked
  case parkedUnique => exact h.parkedUnique
  case parkedNodup => exact h.parkedNodup
  case handed => exact h.handed
  case begun => exact h.begun

lemma Invariant.finish (h : Invariant σ) (hw : σ.charge w = .drained v) :
    Invariant ((σ.setStatus v.txIdx .executed).assign w .free) := by
  obtain ⟨hv, hstatus⟩ := h.execution w v (by rw [hw]; rfl)
  have hother := h.execution_other (w := w) (v := v) (by rw [hw]; rfl)
  have hdeps := h.drained w v hw
  constructor
  all_goals dsimp only [assign, setStatus, Done, Begun]
  case execution => grind [→ h.execution]
  case executionUnique => grind [→ h.executionUnique]
  case drained => grind [h.drained]
  case abortion => grind [→ h.abortion]
  case abortionUnique => grind [→ h.abortionUnique]
  case parked => grind [→ h.parked, Done]
  case parkedUnique => exact h.parkedUnique
  case parkedNodup => exact h.parkedNodup
  case handed => exact h.handed
  case begun => grind [→ h.begun, Begun]

lemma Invariant.abort (h : Invariant σ) (hdone : σ.Done v.txIdx) :
    Invariant ((σ.setStatus v.txIdx .aborting).assign w (.aborts v)) := by
  obtain ⟨hE, hA, hP⟩ := h.unheld (j := v.txIdx) (by rcases hdone with hd | hd <;> simp [hd])
    (by rcases hdone with hd | hd <;> simp [hd])
  constructor
  all_goals dsimp only [assign, setStatus, Done, Begun]
  case execution => grind [→ h.execution]
  case executionUnique => grind [→ h.executionUnique]
  case drained => grind [h.drained]
  case abortion => grind [→ h.abortion]
  case abortionUnique => grind [→ h.abortionUnique]
  case parked => grind [→ h.parked, Done]
  case parkedUnique => exact h.parkedUnique
  case parkedNodup => exact h.parkedNodup
  case handed => exact h.handed
  case begun => grind [→ h.begun, Begun]

lemma Invariant.ready (h : Invariant σ) (hw : σ.charge w = .aborts v) :
    Invariant ((σ.setReady v.txIdx).assign w .free) := by
  obtain ⟨haborting, hP⟩ := h.abortion w v (by rw [hw]; rfl)
  have hother := h.abortion_other (w := w) (v := v) (by rw [hw]; rfl)
  constructor
  all_goals dsimp only [assign, setReady, Done, Begun]
  case execution => grind [→ h.execution]
  case executionUnique => grind [→ h.executionUnique]
  case drained => grind [h.drained]
  case abortion => grind [→ h.abortion]
  case abortionUnique => grind [→ h.abortionUnique]
  case parked => grind [→ h.parked, Done]
  case parkedUnique => exact h.parkedUnique
  case parkedNodup => exact h.parkedNodup
  case handed => exact h.handed
  case begun => grind [→ h.begun, Begun]

theorem Invariant.step {σ' : Board W} (h : Invariant σ) (hstep : Step σ σ') : Invariant σ' := by
  cases hstep with
  | take _ hv hready => exact h.take hv hready
  | park hw hlt hdone hlocked => exact h.park hw hlt hdone hlocked
  | give hw => exact h.recharge (by simp [Charge.execution]) (by simp [Charge.abortion]) (by simp)
  | lock hw =>
    exact h.recharge (by simp [hw, Charge.execution]) (by simp [Charge.abortion]) (by simp)
  | resume _ hdeps => exact h.resume hdeps
  | drain hw hdeps =>
    exact h.recharge (by simp [hw, Charge.execution]) (by simp [Charge.abortion]) (by grind)
  | finish hw => exact h.finish hw
  | validate hj => exact h.validate hj
  | abort _ hdone => exact h.abort hdone
  | ready hw => exact h.ready hw

theorem Invariant.of_reachable {n : ℕ} (h : (system W n).Reachable σ) :
    Invariant σ ∧ σ.blockSize = n := by
  induction h with
  | @init σ hinit =>
    obtain ⟨hsize, hstatus, hdeps, hcharge, hhanded⟩ := hinit
    refine ⟨?_, hsize⟩
    constructor <;> simp [hcharge, hdeps, hhanded, Charge.execution, Charge.abortion]
  | step _ hstep ih =>
    refine ⟨ih.1.step hstep, ?_⟩
    rw [← ih.2]
    cases hstep <;> rfl

end Preservation

end Board

end Pevm
