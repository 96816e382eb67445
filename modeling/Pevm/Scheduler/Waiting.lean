import Pevm.Lib.LockOrder
import Pevm.Scheduler.Exclusive

/-!
# Nobody waits in a circle

The locks of the scheduler as they are taken, one by one. `add_dependency` keeps the status of the
blocking transaction while it asks for the status of its own, and both while it asks for the
dependents of the blocking one. `finish_execution` keeps the status and the dependents of its
transaction while it asks for the statuses of the dependents. So a worker may wait for one that
waits for another one, but along them the transactions go up, and the list of the dependents of a
transaction is asked for only by whoever has its status. The threads are what the workers do once
they have the locks.
-/
namespace Pevm
open Transition

/-- A transaction becomes done under the lock of its status. -/
lemma Board.Step.locked_of_done {W : Type} [DecidableEq W] {σ τ : Board W} (h : Step σ τ) {b : ℕ}
    (hnot : ¬ σ.Done b) (hdone : τ.Done b) : σ.Locked b := by
  have hchanged : ∀ (j : ℕ) (s : TxStatus), (Function.update σ.status j s b).status = .executed ∨
      (Function.update σ.status j s b).status = .validated →
        j = b ∧ (s.status = .executed ∨ s.status = .validated) := by
    intro j s hdone
    by_cases hj : j = b
    · subst hj
      exact ⟨rfl, by simpa using hdone⟩
    · rw [Function.update_of_ne (Ne.symm hj)] at hdone
      exact absurd hdone hnot
  cases h with
  | @finish w v hw =>
    obtain ⟨rfl, -⟩ := hchanged v.txIdx _ hdone
    exact ⟨w, by simp [hw, Charge.Locks]⟩
  | @validate j hj =>
    obtain ⟨rfl, -⟩ := hchanged j _ hdone
    exact absurd (.inl hj) hnot
  | take _ _ _ => simpa using (hchanged _ _ hdone).2
  | park _ _ _ _ => simpa using (hchanged _ _ hdone).2
  | abort _ _ => simpa using (hchanged _ _ hdone).2
  | resume _ _ => simpa using (hchanged _ _ hdone).2
  | ready _ => simpa using (hchanged _ _ hdone).2
  | give _ => exact absurd hdone hnot
  | lock _ => exact absurd hdone hnot
  | drain _ _ => exact absurd hdone hnot

namespace Threads
variable {W : Type}

/-- The next access of the worker needs the status of `j`, which may be locked. -/
def Needs (σ : Threads W) (w : W) (j : ℕ) : Prop :=
  match σ.point w with
  | .validationTaken i => i < σ.scheduler.blockSize ∧ i = j
  | .executionTaken i => i = j
  | .blocked _ b _ => b = j
  | .executed v _ | .failed v | .aborted v | .retaking v | .settled v => v.txIdx = j
  | .resuming v _ => (σ.scheduler.transactionsDependents v.txIdx).head? = some j
  | _ => False

/-- An access of the worker is possible. It leaves the other workers where they are. -/
def Moves [DecidableEq W] (σ : Threads W) (w : W) : Prop :=
  ∃ σ', Step σ σ' ∧ σ'.point w ≠ σ.point w ∧ ∀ w' ≠ w, σ'.point w' = σ.point w'

section Moves
variable [DecidableEq W] {σ : Threads W} {w : W} {q p : Point} {s : Scheduler}

lemma moves_of_step (hw : σ.point w = q) (hstep : Step σ (σ.move w p s)) (hne : p ≠ q) :
    Moves σ w := by
  refine ⟨_, hstep, ?_, fun w' hw' => ?_⟩
  · simpa [Threads.move, hw] using hne
  · simp [Threads.move, hw']

/-- A worker that is given an execution moves, too. -/
lemma moves_of_take {i : ℕ} (hw : σ.point w = q) (hstep : Step σ (σ.take w i))
    (hexecuting : ∀ v, q ≠ .executing v) (hpolling : q ≠ .polling) : Moves σ w := by
  refine ⟨_, hstep, ?_, fun w' hw' => ?_⟩
  · unfold Threads.take
    split
    · simpa [Threads.move, hw] using (hexecuting _).symm
    · simpa [Threads.move, hw] using hpolling.symm
  · unfold Threads.take
    split <;> simp [Threads.move, hw']

/-- A worker that finds the statuses unlocked has a next access. -/
theorem moves_of_needs (hgone : σ.point w ≠ .gone) (hfree : ∀ j, Needs σ w j → ¬ σ.Locked j) :
    Moves σ w := by
  cases hw : σ.point w with
  | polling => exact moves_of_step hw (.loadAborted hw) (by split <;> simp)
  | running => exact moves_of_step hw (.loadExecutionIdx hw) (by simp)
  | loaded e => exact moves_of_step hw (.loadValidationIdx hw) (by simp)
  | compared e v =>
    by_cases hend : σ.scheduler.blockSize ≤ e ∧ σ.scheduler.blockSize ≤ v
    · exact moves_of_step hw (.loadNumValidated hw hend) (by simp)
    · by_cases hlt : v < e
      · exact moves_of_step hw (.takeValidationIdx hw hend hlt) (by simp)
      · exact moves_of_step hw (.fallThrough hw hend hlt) (by simp)
  | counted k => exact moves_of_step hw (.loadMinValidationIdx hw) (by split <;> simp)
  | validationTaken j =>
    by_cases hj : j < σ.scheduler.blockSize
    · have hlocked : ¬ σ.Locked j := hfree j (by simp [Needs, hw, hj])
      cases hst : σ.scheduler.statusOf j with
      | readyToExecute =>
        refine ⟨_, .steal hw hj hlocked hst, by simp [Threads.move, hw], fun w' hw' => ?_⟩
        simp [Threads.move, hw']
      | executing => exact moves_of_step hw (.skipExecuting hw hj hlocked hst) (by simp)
      | executed => exact moves_of_step hw (.validate hw hj hlocked (.inl hst)) (by simp)
      | validated => exact moves_of_step hw (.validate hw hj hlocked (.inr hst)) (by simp)
      | aborting => exact moves_of_step hw (.skipAborting hw hj hlocked hst) (by simp)
    · exact moves_of_step hw (.pastEnd hw hj) (by simp)
  | falling => exact moves_of_step hw (.takeExecutionIdx hw) (by simp)
  | executionTaken j =>
    have hlocked : ¬ σ.Locked j := hfree j (by simp [Needs, hw])
    exact moves_of_take hw (.tryExecute hw hlocked) (by simp) (by simp)
  | executing v => exact moves_of_step hw (.execute .empty hw) (by simp)
  | blocked v b lower =>
    have hlocked : ¬ σ.Locked b := hfree b (by simp [Needs, hw])
    exact moves_of_step hw (.addDependency hw hlocked) (by split <;> simp)
  | executed v flags =>
    have hlocked : ¬ σ.Locked v.txIdx := hfree v.txIdx (by simp [Needs, hw])
    exact moves_of_step hw (.lock hw hlocked) (by simp)
  | resuming v flags =>
    cases hdeps : σ.scheduler.transactionsDependents v.txIdx with
    | nil =>
      have hflags : flags.contains .needValidation = true := by simp
      exact moves_of_step hw (.lowerMinValidationIdx hw hdeps hflags) (by simp)
    | cons d deps =>
      have hlocked : ¬ σ.Locked d := hfree d (by simp [Needs, hw, hdeps])
      exact moves_of_step hw (.setReadyStatus hw hdeps hlocked) (by simp)
  | lowering v flags d => exact moves_of_step hw (.lowerExecutionIdx hw) (by simp)
  | bounded v flags m =>
    by_cases hm : m < σ.scheduler.blockSize
    · by_cases hlt : v.txIdx < m
      · exact moves_of_step hw (.lowerToBound hw hm hlt) (by simp)
      · exact moves_of_step hw (.compareValidationIdx hw hm hlt) (by split <;> simp)
    · exact moves_of_step hw (.noBound hw hm) (by simp)
  | behind v flags => exact moves_of_step hw (.lowerValidationIdx hw) (by simp)
  | reporting v flags =>
    have hflags : flags.contains .needValidation = true := by simp
    exact moves_of_step hw (.report hw hflags) (by simp)
  | closing v flags => exact moves_of_step hw (.close hw) (by simp)
  | validating v => exact moves_of_step hw (.validateReadLocations true hw) (by simp)
  | failed v =>
    have hlocked : ¬ σ.Locked v.txIdx := hfree v.txIdx (by simp [Needs, hw])
    exact moves_of_step hw (.tryValidationAbort hw hlocked) (by split <;> simp)
  | aborted v =>
    have hlocked : ¬ σ.Locked v.txIdx := hfree v.txIdx (by simp [Needs, hw])
    exact moves_of_step hw (.setReadyStatusToo hw hlocked) (by simp)
  | readied v => exact moves_of_step hw (.lowerValidationIdxToo hw) (by simp)
  | lowered v => exact moves_of_step hw (.compareExecutionIdx hw) (by split <;> simp)
  | retaking v =>
    have hlocked : ¬ σ.Locked v.txIdx := hfree v.txIdx (by simp [Needs, hw])
    exact moves_of_take hw (.tryExecuteAgain hw hlocked) (by simp) (by simp)
  | settled v =>
    have hlocked : ¬ σ.Locked v.txIdx := hfree v.txIdx (by simp [Needs, hw])
    exact moves_of_step hw (.finishValidation hw hlocked) (by simp)
  | gone => exact absurd hw hgone

end Moves

/-- A worker begins to finish an execution with one access. After any other access it is in charge
of what it has been in charge of, or it locks nothing. -/
def Enters (p p' : Point) : Prop :=
  (∀ j, p'.charge.Locks j → p.charge.Locks j) ∨
    ∃ v flags, p = .executed v flags ∧ p' = .resuming v flags

section Enters
variable [DecidableEq W] {σ : Threads W} {u : W} {p q : Point}

lemma Enters.refl (p : Point) : Enters p p := .inl fun _ h => h

lemma enters_update (hu : σ.point u = q) (h : Enters q p) (w : W) :
    Enters (σ.point w) (Function.update σ.point u p w) := by
  by_cases hw : w = u
  · subst hw
    simpa [hu] using h
  · simpa [hw] using Enters.refl (σ.point w)

lemma enters_take {i : ℕ} (hu : σ.point u = q) (w : W) :
    Enters (σ.point w) ((σ.take u i).point w) := by
  unfold Threads.take
  split
  · exact enters_update hu (.inl (by exact fun _ h => False.elim h)) w
  · exact enters_update hu (.inl (by exact fun _ h => False.elim h)) w

theorem Step.enters {σ' : Threads W} (h : Step σ σ') (w : W) : Enters (σ.point w) (σ'.point w) := by
  cases h with
  | loadAborted hu => exact enters_update hu (.inl (by split <;> exact fun _ h => h)) w
  | loadExecutionIdx hu => exact enters_update hu (.inl (by exact fun _ h => h)) w
  | loadValidationIdx hu => exact enters_update hu (.inl (by exact fun _ h => h)) w
  | loadNumValidated hu _ => exact enters_update hu (.inl (by exact fun _ h => h)) w
  | loadMinValidationIdx hu => exact enters_update hu (.inl (by split <;> exact fun _ h => h)) w
  | takeValidationIdx hu _ _ => exact enters_update hu (.inl (by exact fun _ h => h)) w
  | fallThrough hu _ _ => exact enters_update hu (.inl (by exact fun _ h => h)) w
  | pastEnd hu _ => exact enters_update hu (.inl (by exact fun _ h => h)) w
  | steal hu _ _ _ => exact enters_update hu (.inl (by exact fun _ h => h)) w
  | validate hu _ _ _ => exact enters_update hu (.inl (by exact fun _ h => h)) w
  | skipAborting hu _ _ _ => exact enters_update hu (.inl (by exact fun _ h => h)) w
  | skipExecuting hu _ _ _ => exact enters_update hu (.inl (by exact fun _ h => h)) w
  | takeExecutionIdx hu => exact enters_update hu (.inl (by exact fun _ h => h)) w
  | tryExecute hu _ => exact enters_take hu w
  | block _ hu => exact enters_update hu (.inl (by exact fun _ h => h)) w
  | addDependency hu _ => exact enters_update hu (.inl (by split <;> exact fun _ h => h)) w
  | abort hu => exact enters_update hu (.inl (by exact fun _ h => h)) w
  | leave _ hu =>
    obtain hu | ⟨v, hu | hu⟩ := hu
    · exact enters_update hu (.inl (by exact fun _ h => h)) w
    · exact enters_update hu (.inl (by exact fun _ h => h)) w
    · exact enters_update hu (.inl (by exact fun _ h => h)) w
  | execute _ hu => exact enters_update hu (.inl (by exact fun _ h => h)) w
  | lock hu _ => exact enters_update hu (.inr ⟨_, _, rfl, rfl⟩) w
  | setReadyStatus hu _ _ => exact enters_update hu (.inl (by exact fun _ h => h)) w
  | lowerExecutionIdx hu => exact enters_update hu (.inl (by exact fun _ h => h)) w
  | lowerMinValidationIdx hu _ _ => exact enters_update hu (.inl (by exact fun _ h => h)) w
  | loadMinValidationIdxToo hu _ _ => exact enters_update hu (.inl (by exact fun _ h => h)) w
  | noBound hu _ => exact enters_update hu (.inl (by exact fun _ h => h)) w
  | lowerToBound hu _ _ => exact enters_update hu (.inl (by exact fun _ h => h)) w
  | compareValidationIdx hu _ _ =>
    exact enters_update hu (.inl (by split <;> exact fun _ h => h)) w
  | lowerValidationIdx hu => exact enters_update hu (.inl (by exact fun _ h => h)) w
  | report hu _ => exact enters_update hu (.inl (by exact fun _ h => False.elim h)) w
  | markValidated hu _ => exact enters_update hu (.inl (by exact fun _ h => h)) w
  | close hu => exact enters_update hu (.inl (by exact fun _ h => False.elim h)) w
  | validateReadLocations valid hu =>
    exact enters_update hu (.inl (by split <;> exact fun _ h => h)) w
  | tryValidationAbort hu _ => exact enters_update hu (.inl (by split <;> exact fun _ h => h)) w
  | setReadyStatusToo hu _ => exact enters_update hu (.inl (by exact fun _ h => h)) w
  | lowerValidationIdxToo hu => exact enters_update hu (.inl (by exact fun _ h => h)) w
  | compareExecutionIdx hu => exact enters_update hu (.inl (by split <;> exact fun _ h => h)) w
  | tryExecuteAgain hu _ => exact enters_take hu w
  | finishValidation hu _ => exact enters_update hu (.inl (by exact fun _ h => h)) w

lemma Step.locked_of_done {σ' : Threads W} (h : Step σ σ') {b : ℕ}
    (hnot : ¬ σ.scheduler.Done b) (hdone : σ'.scheduler.Done b) : σ.Locked b := by
  have hboard := h.board
  replace hdone : σ'.board.Done b := hdone
  generalize σ'.board = τ at hboard hdone
  cases hboard with
  | refl => exact absurd hdone hnot
  | single hboard => exact hboard.locked_of_done hnot hdone

end Enters

end Threads

/-- A lock of the scheduler: that of a status, or that of the list of those who wait for a
transaction. -/
inductive Lock
  | status (txIdx : ℕ)
  | dependents (txIdx : ℕ)
  deriving DecidableEq, Repr

def Lock.txIdx : Lock → ℕ
  | .status j | .dependents j => j

/-- The list of the dependents of a transaction is asked for under the lock of its status. -/
def Lock.guard : Lock → Option Lock
  | .status _ => none
  | .dependents j => some (.status j)

/-- The locks that a call takes one inside the other before it changes anything. -/
def Point.nested : Point → List Lock
  | .blocked v b _ => [.status b, .status v.txIdx, .dependents b]
  | .executed v _ => [.status v.txIdx, .dependents v.txIdx]
  | _ => []

lemma Point.status_mem_take {p : Point} {j k : ℕ} (h : .dependents j ∈ p.nested.take k) :
    .status j ∈ p.nested.take k := by
  cases p with
  | blocked v b lower => rcases k with _ | _ | _ | k <;> simp_all [Point.nested]
  | executed v flags => rcases k with _ | _ | k <;> simp_all [Point.nested]
  | _ => simp [Point.nested] at h

/-- The threads, with the nested locks that are taken and not yet used. -/
structure Locking (W : Type) where
  threads : Threads W
  /-- How many of its nested locks a worker has. -/
  taken : W → ℕ

namespace Locking
variable {W : Type}

/-- The lock that the worker takes next, if its next step takes one. -/
def asks (σ : Locking W) (w : W) : Option Lock :=
  match σ.threads.point w with
  | .validationTaken i | .executionTaken i =>
    if i < σ.threads.scheduler.blockSize then some (.status i) else none
  | .failed v | .aborted v | .retaking v | .settled v => some (.status v.txIdx)
  | .resuming v _ => (σ.threads.scheduler.transactionsDependents v.txIdx).head?.map .status
  | p => p.nested[σ.taken w]?

/-- The worker has the lock. One that finishes an execution has both locks of its transaction. -/
def Holds (σ : Locking W) (w : W) (l : Lock) : Prop :=
  (σ.threads.point w).charge.Locks l.txIdx ∨
    l ∈ (σ.threads.point w).nested.take (σ.taken w)

/-- Nobody has the lock. -/
def Free (σ : Locking W) (l : Lock) : Prop := ∀ w, ¬ σ.Holds w l

/-- With the lock that it asks for, the worker has all that its next access needs. Where it sees
under the first lock that the blocking transaction is done, `add_dependency` returns. -/
def Last (σ : Locking W) (w : W) : Prop :=
  match σ.threads.point w with
  | .blocked _ b _ => σ.taken w = 2 ∨ σ.taken w = 0 ∧ σ.threads.scheduler.Done b
  | .executed _ _ => σ.taken w = 1
  | _ => True

/-- The worker waits for a lock that `w'` has. -/
def Waits (σ : Locking W) : W → W → Prop := LockOrder.Waits σ.asks σ.Holds

section Asks
variable {σ : Locking W} {w : W} {l : Lock} {i j : ℕ}

/-- Nested locks are asked for in their order. -/
lemma asks_of_not_last (h : ¬ σ.Last w) :
    σ.asks w = (σ.threads.point w).nested[σ.taken w]? := by
  cases hw : σ.threads.point w <;> simp_all [Last, asks]

/-- The dependents of a transaction are the last lock of both calls that nest locks. -/
lemma asks_dependents (h : σ.asks w = some (.dependents j)) :
    (∃ v lower, σ.threads.point w = .blocked v j lower ∧ σ.taken w = 2) ∨
      ∃ v flags, σ.threads.point w = .executed v flags ∧ v.txIdx = j ∧ σ.taken w = 1 := by
  cases hw : σ.threads.point w with
  | blocked v b lower =>
    simp only [asks, hw, Point.nested] at h
    rcases htaken : σ.taken w with _ | _ | _ | k <;> simp [htaken] at h
    subst h
    exact .inl ⟨v, lower, rfl, rfl⟩
  | executed v flags =>
    simp only [asks, hw, Point.nested] at h
    rcases htaken : σ.taken w with _ | _ | k <;> simp [htaken] at h
    exact .inr ⟨v, flags, rfl, h, rfl⟩
  | _ => simp [asks, hw, Point.nested] at h

/-- Who has a status and asks for another one depends on the first, or resumes the second. -/
lemma asks_status_of_holds (h : σ.asks w = some (.status j)) (hholds : σ.Holds w (.status i)) :
    (∃ v lower, σ.threads.point w = .blocked v i lower ∧ v.txIdx = j) ∨
      ∃ v flags, σ.threads.point w = .resuming v flags ∧ v.txIdx = i ∧
        j ∈ σ.threads.scheduler.transactionsDependents i := by
  cases hw : σ.threads.point w with
  | blocked v b lower =>
    simp only [asks, hw, Point.nested] at h
    rcases htaken : σ.taken w with _ | _ | _ | k <;> simp [htaken] at h
    · simp [Holds, hw, htaken, Point.charge, Charge.Locks] at hholds
    · obtain rfl : i = b := by
        simpa [Holds, hw, htaken, Point.charge, Charge.Locks, Point.nested] using hholds
      exact .inl ⟨v, lower, rfl, h⟩
  | executed v flags =>
    simp only [asks, hw, Point.nested] at h
    rcases htaken : σ.taken w with _ | _ | k <;> simp [htaken] at h
    simp [Holds, hw, htaken, Point.charge, Charge.Locks] at hholds
  | resuming v flags =>
    obtain rfl : v.txIdx = i := by
      simpa [Holds, hw, Point.charge, Charge.Locks, Point.nested, Lock.txIdx] using hholds
    simp only [asks, hw, Option.map_eq_some_iff] at h
    obtain ⟨d, hd, ⟨⟩⟩ := h
    exact .inr ⟨v, flags, rfl, rfl, List.mem_of_mem_head? hd⟩
  | _ => simp [Holds, hw, Point.charge, Charge.Locks, Point.nested, asks] at h hholds

lemma not_gone_of_holds (h : σ.Holds w l) : σ.threads.point w ≠ .gone := by
  intro hw
  simp [Holds, hw, Point.charge, Charge.Locks, Point.nested] at h

end Asks

section Steps
variable [DecidableEq W]

/-- A worker takes a lock that nobody has. The last one it takes together with what it does under
its locks, as nobody else can see that in parts. -/
inductive Step (w : W) : Locking W → Locking W → Prop
  | take {σ : Locking W} {l : Lock} : σ.asks w = some l → σ.Free l → ¬ σ.Last w →
      Step w σ { σ with taken := Function.update σ.taken w (σ.taken w + 1) }
  | access {σ : Locking W} {τ : Threads W} : (∀ l, σ.asks w = some l → σ.Free l) → σ.Last w →
      Threads.Step σ.threads τ → τ.point w ≠ σ.threads.point w →
      (∀ w' ≠ w, τ.point w' = σ.threads.point w') →
      Step w σ ⟨τ, Function.update σ.taken w 0⟩

/-- The workers begin without nested locks, and each step is one of some worker. -/
def system (W : Type) [DecidableEq W] (blockSize : ℕ) : TransitionSystem (Locking W) where
  init σ := (Threads.system W blockSize).init σ.threads ∧ ∀ w, σ.taken w = 0
  step σ σ' := ∃ w, Step w σ σ'

/-- The worker can take a lock or make an access. -/
def Moves (σ : Locking W) (w : W) : Prop := ∃ σ', Step w σ σ'

/-- Without the locks the workers do what the threads do, so the locks do not add to what can
happen. -/
def abstraction (W : Type) [DecidableEq W] (blockSize : ℕ) :
    (system W blockSize).Abstraction (Threads.system W blockSize) where
  f := threads
  init _ h := h.1
  step _ _ h := by
    obtain ⟨w, h⟩ := h
    cases h with
    | take _ _ _ => exact .refl
    | access _ _ hstep _ _ => exact .single hstep

variable {σ σ' : Locking W} {w w' : W} {l : Lock} {n : ℕ}

lemma Step.free (h : Step w σ σ') (hasks : σ.asks w = some l) : σ.Free l := by
  cases h with
  | take hasks' hfree _ =>
    obtain rfl := Option.some.inj (hasks'.symm.trans hasks)
    exact hfree
  | access hfree _ _ _ _ => exact hfree l hasks

lemma Step.point_of_ne (h : Step w σ σ') (hne : w' ≠ w) :
    σ'.threads.point w' = σ.threads.point w' := by
  cases h with
  | take _ _ _ => rfl
  | access _ _ _ _ hothers => exact hothers w' hne

lemma Step.taken_of_ne (h : Step w σ σ') (hne : w' ≠ w) : σ'.taken w' = σ.taken w' := by
  cases h with
  | take _ _ _ => exact Function.update_of_ne hne ..
  | access _ _ _ _ _ => exact Function.update_of_ne hne ..

lemma Step.holds_of_ne (h : Step w σ σ') (hne : w' ≠ w) : σ'.Holds w' l ↔ σ.Holds w' l := by
  unfold Holds
  rw [h.point_of_ne hne, h.taken_of_ne hne]

/-- A worker has no more locks after a step than before, apart from the one that it asked for. -/
lemma Step.holds (h : Step w σ σ') (hholds : σ'.Holds w l) :
    σ.Holds w l ∨ σ.asks w = some l := by
  cases h with
  | take _ _ hlast =>
    rw [asks_of_not_last hlast]
    rcases hholds with hlocks | hnested
    · exact .inl (.inl hlocks)
    · replace hnested : l ∈ (σ.threads.point w).nested.take (σ.taken w + 1) := by
        simpa using hnested
      rw [List.take_add_one, List.mem_append, Option.mem_toList] at hnested
      exact hnested.imp_left .inr
  | @access τ _ hlast hstep _ _ =>
    have hlocks : (τ.point w).charge.Locks l.txIdx := by
      simpa [Holds] using hholds
    rcases hstep.enters w with hkept | ⟨v, flags, hw, hw'⟩
    · exact .inl (.inl (hkept _ hlocks))
    · -- under the status of its transaction the worker has asked for the dependents
      rw [hw'] at hlocks
      have hlast : σ.taken w = 1 := by simpa [Last, hw] using hlast
      cases l with
      | status j =>
        obtain rfl : v.txIdx = j := hlocks
        exact .inl (.inr (by simp [hw, hlast, Point.nested]))
      | dependents j =>
        obtain rfl : v.txIdx = j := hlocks
        exact .inr (by simp [asks, hw, hlast, Point.nested])

/-- What holds of the locks between any two steps: nobody has all nested locks without using them,
and nobody shares one. -/
structure Invariant (σ : Locking W) : Prop where
  taken : ∀ w, σ.taken w = 0 ∨ σ.taken w < (σ.threads.point w).nested.length
  exclusive : ∀ w w' l, σ.Holds w l → σ.Holds w' l → w = w'
  blocking : ∀ w v b lower, σ.threads.point w = .blocked v b lower → σ.taken w ≠ 0 →
    ¬ σ.threads.scheduler.Done b

lemma Invariant.exclusive_step (h : Invariant σ) (hstep : Step w σ σ') :
    ∀ u u' l, σ'.Holds u l → σ'.Holds u' l → u = u' := by
  have honly : ∀ u l, σ'.Holds w l → σ'.Holds u l → u = w := by
    intro u l hw hu
    by_contra hne
    rw [hstep.holds_of_ne hne] at hu
    rcases hstep.holds hw with hholds | hasks
    · exact hne (h.exclusive u w l hu hholds)
    · exact hstep.free hasks u hu
  intro u u' l hu hu'
  by_cases huw : u = w
  · subst huw
    exact (honly u' l hu hu').symm
  · by_cases huw' : u' = w
    · subst huw'
      exact honly u l hu' hu
    · rw [hstep.holds_of_ne huw] at hu
      rw [hstep.holds_of_ne huw'] at hu'
      exact h.exclusive u u' l hu hu'

lemma Invariant.taken_step (h : Invariant σ) (hstep : Step w σ σ') (u : W) :
    σ'.taken u = 0 ∨ σ'.taken u < (σ'.threads.point u).nested.length := by
  by_cases hu : u = w
  · subst hu
    cases hstep with
    | take _ _ hlast =>
      right
      have htaken := h.taken u
      cases hw : σ.threads.point u <;> simp_all [Last, Point.nested]
      · omega
      · omega
    | access _ _ _ _ _ => simp
  · rw [hstep.taken_of_ne hu, hstep.point_of_ne hu]
    exact h.taken u

/-- What `add_dependency` has seen under its first lock stays so while it takes the others. -/
lemma Invariant.blocking_step (h : Invariant σ) (hstep : Step w σ σ') (u : W) (v : TxVersion)
    (b : ℕ) (lower : b < v.txIdx) (hu : σ'.threads.point u = .blocked v b lower)
    (htaken : σ'.taken u ≠ 0) : ¬ σ'.threads.scheduler.Done b := by
  by_cases huw : u = w
  · subst huw
    cases hstep with
    | take _ _ hlast =>
      by_cases hzero : σ.taken u = 0
      · intro hdone
        replace hu : σ.threads.point u = .blocked v b lower := hu
        refine hlast ?_
        simp only [Last, hu]
        exact .inr ⟨hzero, hdone⟩
      · exact h.blocking u v b lower hu hzero
    | access _ _ _ _ _ => simp at htaken
  · rw [hstep.point_of_ne huw] at hu
    rw [hstep.taken_of_ne huw] at htaken
    have hnot := h.blocking u v b lower hu htaken
    cases hstep with
    | take _ _ _ => exact hnot
    | access _ _ hstep _ _ =>
      intro hdone
      obtain ⟨u', hu'⟩ := hstep.locked_of_done hnot hdone
      have hheld : σ.Holds u (.status b) := by
        right
        obtain ⟨k, hk⟩ := Nat.exists_eq_succ_of_ne_zero htaken
        simp [hu, hk, Point.nested]
      have hholds : σ.Holds u' (.status b) := .inl hu'
      obtain rfl := h.exclusive u' u _ hholds hheld
      rw [hu] at hu'
      exact hu'

theorem invariant_of_reachable (h : (system W n).Reachable σ) : Invariant σ := by
  induction h with
  | @init σ h =>
    obtain ⟨⟨-, hpoint, -⟩, htaken⟩ := h
    refine ⟨fun w => .inl (htaken w), ?_, ?_⟩
    · intro w w' l hw
      simp [Holds, hpoint, htaken, Point.charge, Charge.Locks] at hw
    · intro w v b lower hw
      simp [hpoint] at hw
  | step _ hstep ih =>
    obtain ⟨w, hstep⟩ := hstep
    exact ⟨ih.taken_step hstep, ih.exclusive_step hstep, ih.blocking_step hstep⟩

/-- A worker that gets to the last of its three locks is parked under it. -/
theorem parks_of_taken (h : (system W n).Reachable σ) {v : TxVersion} {b : ℕ}
    {lower : b < v.txIdx} (hw : σ.threads.point w = .blocked v b lower) (htaken : σ.taken w ≠ 0) :
    (σ.threads.scheduler.addDependency v.txIdx b).1 = true := by
  have hnotDone := (invariant_of_reachable h).blocking w v b lower hw htaken
  rw [Scheduler.addDependency_eq, if_neg hnotDone]

end Steps

section Order
variable [DecidableEq W] {σ : Locking W} {w : W} {j n : ℕ}

lemma asks_lt (h : (system W n).Reachable σ) (hasks : σ.asks w = some (.status j)) : j < n := by
  have hthreads : (Threads.system W n).Reachable σ.threads := (abstraction W n).reachable h
  obtain ⟨hboard, hsize⟩ := Threads.board_invariant hthreads
  have hsize : σ.threads.scheduler.blockSize = n := hsize
  have hbounded := Threads.bounded_of_reachable hthreads w
  rw [hsize] at hbounded
  cases hw : σ.threads.point w with
  | validationTaken i | executionTaken i =>
    simp only [asks, hw] at hasks
    split_ifs at hasks with hi
    obtain ⟨⟩ := hasks
    exact hsize ▸ hi
  | blocked v b lower =>
    have hv := hbounded v (by rw [hw]; rfl)
    simp only [asks, hw, Point.nested] at hasks
    rcases htaken : σ.taken w with _ | _ | _ | k <;> simp [htaken] at hasks
    · exact hasks ▸ lower.trans hv
    · exact hasks ▸ hv
  | executed v flags =>
    have hv := hbounded v (by rw [hw]; rfl)
    simp only [asks, hw, Point.nested] at hasks
    rcases htaken : σ.taken w with _ | _ | k <;> simp [htaken] at hasks
    exact hasks ▸ hv
  | resuming v flags =>
    simp only [asks, hw, Option.map_eq_some_iff] at hasks
    obtain ⟨d, hd, ⟨⟩⟩ := hasks
    exact hsize ▸ (hboard.parked v.txIdx j (List.mem_of_mem_head? hd)).2.1
  | failed v | aborted v | retaking v | settled v =>
    have hv := hbounded v (by rw [hw]; rfl)
    simp only [asks, hw, Option.some.injEq, Lock.status.injEq] at hasks
    exact hasks ▸ hv
  | _ => simp [asks, hw, Point.nested] at hasks

/-- The locks are taken in the order of the transactions, and the dependents of a transaction under
its status. -/
theorem ordered (h : (system W n).Reachable σ) :
    LockOrder.Ordered σ.asks σ.Holds Lock.guard Lock.txIdx n where
  exclusive := (invariant_of_reachable h).exclusive
  inner_fresh := by
    intro w l g hguard hasks
    cases l with
    | status j => cases hguard
    | dependents j =>
      obtain ⟨v, lower, hw, htaken⟩ | ⟨v, flags, hw, hv, htaken⟩ := asks_dependents hasks
      · simp [Holds, hw, htaken, Point.charge, Charge.Locks, Point.nested]
      · simp [Holds, hw, htaken, Point.charge, Charge.Locks, Point.nested]
  inner_asks := by
    intro w l g hguard hasks
    cases l with
    | status j => cases hguard
    | dependents j =>
      obtain ⟨⟩ := hguard
      obtain ⟨v, lower, hw, htaken⟩ | ⟨v, flags, hw, hv, htaken⟩ := asks_dependents hasks
      · exact .inr (by simp [hw, htaken, Point.nested])
      · exact .inr (by simp [hw, htaken, hv, Point.nested])
  inner_holds := by
    intro w l g hguard hholds
    cases l with
    | status j => cases hguard
    | dependents j =>
      obtain ⟨⟩ := hguard
      rcases hholds with hlocks | hnested
      · exact .inl hlocks
      · exact .inr (Point.status_mem_take hnested)
  outer_lt := by
    intro w l l' hguard hguard' hasks hholds
    cases l with
    | dependents j => cases hguard
    | status j =>
      cases l' with
      | dependents i => cases hguard'
      | status i =>
        obtain ⟨v, lower, -, rfl⟩ | ⟨v, flags, -, -, hmem⟩ := asks_status_of_holds hasks hholds
        · exact lower
        · have hthreads : (Threads.system W n).Reachable σ.threads := (abstraction W n).reachable h
          exact ((Threads.board_invariant hthreads).1.parked i j hmem).1
  outer_bounded := by
    intro w l hguard hasks
    cases l with
    | dependents j => cases hguard
    | status j => exact asks_lt h hasks

/-- With the locks that it has and asks for, a worker has the statuses that its access needs. -/
lemma not_locked_of_needs (h : (system W n).Reachable σ) (hlast : σ.Last w)
    (hfree : ∀ l, σ.asks w = some l → σ.Free l) (hneeds : σ.threads.Needs w j) :
    ¬ σ.threads.Locked j := by
  rintro ⟨u, hu⟩
  have hthreads : (Threads.system W n).Reachable σ.threads := (abstraction W n).reachable h
  have hj : j < σ.threads.scheduler.blockSize := by
    obtain ⟨v, hv, rfl⟩ : ∃ v, (σ.threads.point u).charge.execution = some v ∧ v.txIdx = j := by
      revert hu
      cases (σ.threads.point u).charge <;> simp [Charge.Locks, Charge.execution]
    exact ((Threads.board_invariant hthreads).1.execution u v hv).1
  have hholds : σ.Holds u (.status j) := .inl hu
  have hhas : σ.asks w = some (.status j) ∨
      σ.Holds w (.status j) ∧ ¬ (σ.threads.point w).charge.Locks j := by
    cases hw : σ.threads.point w with
    | blocked v b lower =>
      obtain rfl : b = j := by simpa [Threads.Needs, hw] using hneeds
      have hcases : σ.taken w = 2 ∨ σ.taken w = 0 ∧ σ.threads.scheduler.Done b := by
        simpa [Last, hw] using hlast
      rcases hcases with htaken | ⟨htaken, -⟩
      · exact .inr ⟨.inr (by simp [hw, htaken, Point.nested]), id⟩
      · exact .inl (by simp [asks, hw, htaken, Point.nested])
    | executed v flags =>
      obtain rfl : v.txIdx = j := by simpa [Threads.Needs, hw] using hneeds
      have htaken : σ.taken w = 1 := by simpa [Last, hw] using hlast
      exact .inr ⟨.inr (by simp [hw, htaken, Point.nested]), id⟩
    | _ => simp_all [Threads.Needs, asks]
  rcases hhas with hasks | ⟨hown, hnot⟩
  · exact hfree _ hasks u hholds
  · obtain rfl := (invariant_of_reachable h).exclusive w u _ hown hholds
    exact hnot hu

/-- A worker that does not wait has a next step. -/
theorem moves_of_free (h : (system W n).Reachable σ) (hgone : σ.threads.point w ≠ .gone)
    (hfree : ∀ l, σ.asks w = some l → σ.Free l) : σ.Moves w := by
  by_cases hlast : σ.Last w
  · obtain ⟨τ, hstep, hne, hothers⟩ := Threads.moves_of_needs hgone fun j hneeds =>
      not_locked_of_needs h hlast hfree hneeds
    exact ⟨_, .access hfree hlast hstep hne hothers⟩
  · have htaken : σ.taken w < (σ.threads.point w).nested.length := by
      rcases (invariant_of_reachable h).taken w with hzero | hlt
      · cases hw : σ.threads.point w <;> simp_all [Last, Point.nested]
      · exact hlt
    have hasks := asks_of_not_last hlast
    rw [List.getElem?_eq_getElem htaken] at hasks
    exact ⟨_, .take hasks (hfree _ hasks) hlast⟩

/-- In every reachable state, whether the block is aborted or not: nobody waits in a circle, and
every worker that has not left has a next step or waits, over others perhaps, for one that has. For
the lock of a list of dependents nobody ever waits. -/
theorem waits_end (h : (system W n).Reachable σ) :
    (∀ w, ¬ Relation.TransGen σ.Waits w w) ∧
      (∀ w, σ.threads.point w ≠ .gone →
        ∃ w', Relation.ReflTransGen σ.Waits w w' ∧ σ.Moves w') ∧
      ∀ w j, σ.asks w = some (.dependents j) → σ.Free (.dependents j) := by
  have hordered := ordered h
  refine ⟨hordered.not_circular, ?_, fun w j hasks w' => hordered.inner_free rfl hasks⟩
  intro w hgone
  obtain ⟨w', hchain, hlast⟩ := hordered.ends w
  refine ⟨w', hchain, moves_of_free h ?_ fun l hasks u hholds => hlast u ⟨l, hasks, hholds⟩⟩
  rcases hchain.cases_tail with heq | ⟨u, -, l, -, hholds⟩
  · exact heq ▸ hgone
  · exact not_gone_of_holds hholds

end Order

section Sample
variable {W : Type} [DecidableEq W] {σ τ : Threads W} {n : ℕ}

instance (c : Charge) (j : ℕ) : Decidable (c.Locks j) :=
  match c with
  | .drains v | .drained v => inferInstanceAs (Decidable (v.txIdx = j))
  | .free | .executes _ | .aborts _ => inferInstanceAs (Decidable False)

instance (σ : Threads (Fin 3)) (j : ℕ) : Decidable (σ.Locked j) :=
  inferInstanceAs (Decidable (∃ w, (σ.point w).charge.Locks j))

instance (σ : Locking W) (w : W) (l : Lock) : Decidable (σ.Holds w l) :=
  inferInstanceAs (Decidable (_ ∨ _))

instance (σ : Locking (Fin 3)) (l : Lock) : Decidable (σ.Free l) :=
  inferInstanceAs (Decidable (∀ w, ¬ σ.Holds w l))

/-- An access of a worker while nobody has a nested lock. -/
lemma reachable_access (w : W) (h : (system W n).Reachable ⟨σ, fun _ => 0⟩)
    (hstep : Threads.Step σ τ) (hlast : Last ⟨σ, fun _ => 0⟩ w)
    (halone : (∀ l ∈ asks ⟨σ, fun _ => 0⟩ w, ∀ w', ¬ (σ.point w').charge.Locks l.txIdx) ∧
      τ.point w ≠ σ.point w ∧ ∀ w' ≠ w, τ.point w' = σ.point w') :
    (system W n).Reachable ⟨τ, fun _ => 0⟩ := by
  obtain ⟨hfree, hne, hothers⟩ := halone
  have hstep' : Step w ⟨σ, fun _ => 0⟩ ⟨τ, Function.update (fun _ => 0) w 0⟩ := by
    refine .access (fun l hl w' hholds => hfree l hl w' ?_) hlast hstep hne hothers
    simpa [Holds] using hholds
  rw [Function.update_eq_self] at hstep'
  exact h.step ⟨w, hstep'⟩

/-- The first worker finishes transaction 0. Another one is about to depend on it and has its
status, and a third one, about to depend on transaction 1, has the status that the second asks
for. -/
theorem waits_end_nested :
    ∃ σ : Locking (Fin 3), (system (Fin 3) 3).Reachable σ ∧ σ.Waits 0 1 ∧ σ.Waits 1 2 ∧
      (∀ w, ¬ Relation.TransGen σ.Waits w w) ∧
        ∃ w', Relation.ReflTransGen σ.Waits 0 w' ∧ σ.Moves w' := by
  let start : Threads (Fin 3) := ⟨.new 3, fun _ => .polling, []⟩
  have h : (system (Fin 3) 3).Reachable ⟨start, fun _ => 0⟩ :=
    .init ⟨⟨rfl, fun _ => rfl, rfl⟩, fun _ => rfl⟩
  have h := reachable_access 0 h (.loadAborted (w := 0) rfl) trivial (by decide)
  have h := reachable_access 0 h (.loadExecutionIdx (w := 0) rfl) trivial (by decide)
  have h := reachable_access 0 h (.loadValidationIdx (w := 0) rfl) trivial (by decide)
  have h := reachable_access 0 h (.fallThrough (w := 0) rfl (by decide) (by decide)) trivial
    (by decide)
  have h := reachable_access 0 h (.takeExecutionIdx (w := 0) rfl) trivial (by decide)
  have h := reachable_access 0 h (.tryExecute (w := 0) rfl (by decide)) trivial (by decide)
  have h := reachable_access 1 h (.loadAborted (w := 1) rfl) trivial (by decide)
  have h := reachable_access 1 h (.loadExecutionIdx (w := 1) rfl) trivial (by decide)
  have h := reachable_access 1 h (.loadValidationIdx (w := 1) rfl) trivial (by decide)
  have h := reachable_access 1 h (.fallThrough (w := 1) rfl (by decide) (by decide)) trivial
    (by decide)
  have h := reachable_access 1 h (.takeExecutionIdx (w := 1) rfl) trivial (by decide)
  have h := reachable_access 1 h (.tryExecute (w := 1) rfl (by decide)) trivial (by decide)
  have h := reachable_access 2 h (.loadAborted (w := 2) rfl) trivial (by decide)
  have h := reachable_access 2 h (.loadExecutionIdx (w := 2) rfl) trivial (by decide)
  have h := reachable_access 2 h (.loadValidationIdx (w := 2) rfl) trivial (by decide)
  have h := reachable_access 2 h (.fallThrough (w := 2) rfl (by decide) (by decide)) trivial
    (by decide)
  have h := reachable_access 2 h (.takeExecutionIdx (w := 2) rfl) trivial (by decide)
  have h := reachable_access 2 h (.tryExecute (w := 2) rfl (by decide)) trivial (by decide)
  have h := reachable_access 1 h (.block (w := 1) (v := ⟨1, 0⟩) (b := 0) (by decide) rfl) trivial
    (by decide)
  have h := reachable_access 2 h (.block (w := 2) (v := ⟨2, 0⟩) (b := 1) (by decide) rfl) trivial
    (by decide)
  have h := reachable_access 0 h (.execute (w := 0) (v := ⟨0, 0⟩) .empty rfl) trivial (by decide)
  have hfirst := h.step ⟨1, .take (l := .status 0) rfl (by decide)
    (by rintro (htaken | ⟨-, hdone | hdone⟩) <;> contradiction)⟩
  have hsecond := hfirst.step ⟨2, .take (l := .status 1) rfl (by decide)
    (by rintro (htaken | ⟨-, hdone | hdone⟩) <;> contradiction)⟩
  obtain ⟨hcircular, hmoves, -⟩ := waits_end hsecond
  exact ⟨_, hsecond, ⟨.status 0, rfl, by decide⟩, ⟨.status 1, rfl, by decide⟩, hcircular,
    hmoves 0 (by decide)⟩

end Sample

end Locking

end Pevm
