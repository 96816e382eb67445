import Pevm.Scheduler.Exclusive

/-!
# Every transaction is attended to

Between two accesses a transaction that is not validated may lie behind both counters. Some
worker then stands at a point from which it goes on to the transaction, or lowers a counter
to it; or the transaction is parked behind a lower one. And while a counter is below the
block size, some worker has not made up its mind to leave.
-/
namespace Pevm
open Transition

namespace Point

/-- The worker will look at the status of `j` for an execution, or lower the counter to it. -/
def SeeksExecution (p : Point) (j : ℕ) : Prop :=
  match p with
  | .validationTaken i | .executionTaken i | .lowering _ _ i => i = j
  | .readied v | .lowered v | .retaking v => v.txIdx = j
  | _ => False

/-- The worker validates `j`, or will look at its status for a validation. -/
def SeeksValidation (p : Point) (j : ℕ) : Prop :=
  match p with
  | .validationTaken i => i = j
  | .validating v | .failed v | .settled v => v.txIdx = j
  | _ => False

/-- The worker attends to `j` when this is its status, so the status will change by what it does. -/
def Attends (p : Point) (j : ℕ) : IncarnationStatus → Prop
  | .readyToExecute => p.SeeksExecution j
  | .executing => ∃ v, p.charge.execution = some v ∧ v.txIdx = j
  | .executed => p.SeeksValidation j
  | .validated => False
  | .aborting => ∃ v, p.charge.abortion = some v ∧ v.txIdx = j

/-- The worker will load the counters before it leaves, or has seen an execution to come. -/
def Searches (p : Point) (blockSize : ℕ) : Prop :=
  match p with
  | .loaded e => e < blockSize
  | .compared e v => e < blockSize ∨ v < blockSize
  | .counted _ | .gone => False
  | _ => True

/-- The same of the validation counter, which is loaded second. -/
def SearchesToo (p : Point) (blockSize : ℕ) : Prop :=
  match p with
  | .compared e v => e < blockSize ∨ v < blockSize
  | .counted _ | .gone => False
  | _ => True

end Point

namespace Scheduler

/-- Nobody need attend to `j` when this is its status: a counter will come to it, the list of
a lower transaction holds it, or it is validated. -/
def Finds (s : Scheduler) (j : ℕ) : IncarnationStatus → Prop
  | .readyToExecute => s.executionIdx ≤ j
  | .executing => False
  | .executed => s.validationIdx ≤ j
  | .validated => True
  | .aborting => ∃ b, j ∈ s.transactionsDependents b

end Scheduler

/-- The counters and lists, or a worker that stands at `p`, take care of `j`. -/
def Covers (s : Scheduler) (p : Point) (j : ℕ) : Prop :=
  s.Finds j (s.statusOf j) ∨ p.Attends j (s.statusOf j)

namespace Threads
variable {W : Type}

/-- What holds between any two accesses as long as nobody aborts the block: every transaction that
is not validated is taken care of by somebody. -/
structure Attended (σ : Threads W) : Prop where
  tx : ∀ j < σ.scheduler.blockSize, σ.scheduler.Finds j (σ.scheduler.statusOf j) ∨
    ∃ w, (σ.point w).Attends j (σ.scheduler.statusOf j)
  bounded : ∀ w v flags m, σ.point w = .bounded v flags m → m ≤ v.txIdx
  closing : ∀ w v flags, σ.point w = .closing v flags →
    σ.scheduler.validationIdx ≤ v.txIdx ∨ ∃ w', (σ.point w').SeeksValidation v.txIdx
  searches : σ.scheduler.executionIdx < σ.scheduler.blockSize →
    ∃ w, (σ.point w).Searches σ.scheduler.blockSize
  searchesToo : σ.scheduler.validationIdx < σ.scheduler.blockSize →
    ∃ w, (σ.point w).SearchesToo σ.scheduler.blockSize

/-- What worker `w` gives up when it moves from `q` to `p`, it has passed on: to the counters, to a
list, or to another worker. -/
structure Passes (σ : Threads W) (w : W) (s : Scheduler) (q p : Point) : Prop where
  size : s.blockSize = σ.scheduler.blockSize
  tx : ∀ j < σ.scheduler.blockSize,
    (s.statusOf j = σ.scheduler.statusOf j → Covers σ.scheduler q j) →
      Covers s p j ∨ ∃ w' ≠ w, (σ.point w').Attends j (s.statusOf j)
  bounded : ∀ v flags m, p = .bounded v flags m → m ≤ v.txIdx
  validation : ∀ j < σ.scheduler.blockSize, σ.Locked j →
    σ.scheduler.validationIdx ≤ j ∨ q.SeeksValidation j →
      s.validationIdx ≤ j ∨ p.SeeksValidation j
  closing : ∀ v flags, p = .closing v flags → s.validationIdx ≤ v.txIdx
  searches : s.executionIdx < σ.scheduler.blockSize → p.Searches σ.scheduler.blockSize ∨
    σ.scheduler.executionIdx < σ.scheduler.blockSize ∧ ¬ q.Searches σ.scheduler.blockSize
  searchesToo : s.validationIdx < σ.scheduler.blockSize → p.SearchesToo σ.scheduler.blockSize ∨
    σ.scheduler.validationIdx < σ.scheduler.blockSize ∧ ¬ q.SearchesToo σ.scheduler.blockSize

section Passing
variable {σ : Threads W} {w : W} {q p : Point} {s : Scheduler}

attribute [local grind] Covers Scheduler.Finds Point.Attends Point.SeeksExecution
  Point.SeeksValidation Point.Searches Point.SearchesToo Point.charge Charge.execution
  Charge.abortion

/-- An access to the counters. -/
lemma Passes.silent (hsize : s.blockSize = σ.scheduler.blockSize)
    (hstatus : s.transactionsStatus = σ.scheduler.transactionsStatus)
    (hdeps : s.transactionsDependents = σ.scheduler.transactionsDependents)
    (hcharge : p.charge.execution = q.charge.execution ∧ p.charge.abortion = q.charge.abortion)
    (hexecution : ∀ j < σ.scheduler.blockSize, σ.scheduler.statusOf j = .readyToExecute →
      σ.scheduler.executionIdx ≤ j ∨ q.SeeksExecution j →
        s.executionIdx ≤ j ∨ p.SeeksExecution j)
    (hvalidation : ∀ j < σ.scheduler.blockSize, σ.scheduler.statusOf j = .executed ∨ σ.Locked j →
      σ.scheduler.validationIdx ≤ j ∨ q.SeeksValidation j →
        s.validationIdx ≤ j ∨ p.SeeksValidation j)
    (hbounded : ∀ v flags m, p = .bounded v flags m → m ≤ v.txIdx)
    (hclosing : ∀ v flags, p = .closing v flags → s.validationIdx ≤ v.txIdx)
    (hsearches : s.executionIdx < σ.scheduler.blockSize → p.Searches σ.scheduler.blockSize ∨
      σ.scheduler.executionIdx < σ.scheduler.blockSize ∧ ¬ q.Searches σ.scheduler.blockSize)
    (hsearchesToo : s.validationIdx < σ.scheduler.blockSize →
      p.SearchesToo σ.scheduler.blockSize ∨
        σ.scheduler.validationIdx < σ.scheduler.blockSize ∧
          ¬ q.SearchesToo σ.scheduler.blockSize) :
    Passes σ w s q p := by
  have hst : ∀ j, s.statusOf j = σ.scheduler.statusOf j := by
    intro j
    rw [Scheduler.statusOf, hstatus]
    rfl
  refine ⟨hsize, ?_, hbounded, fun j hj hlocked => hvalidation j hj (.inr hlocked), hclosing,
    hsearches, hsearchesToo⟩
  intro j hj hold
  left
  have hold : Covers σ.scheduler q j := hold (hst j)
  unfold Covers at hold ⊢
  rw [hst j]
  cases h : σ.scheduler.statusOf j with
  | readyToExecute =>
    rw [h] at hold
    exact hexecution j hj h hold
  | executing =>
    rw [h] at hold
    simpa [Scheduler.Finds, Point.Attends, hcharge.1] using hold
  | executed =>
    rw [h] at hold
    exact hvalidation j hj (.inl h) hold
  | validated => exact .inl trivial
  | aborting =>
    rw [h] at hold
    simpa [Scheduler.Finds, Point.Attends, hcharge.2, hdeps] using hold

/-- One status changes, and the worker stays in search of tasks. -/
lemma Passes.update {i : ℕ} {st : TxStatus} (hsize : s.blockSize = σ.scheduler.blockSize)
    (hstatus : s.transactionsStatus = Function.update σ.scheduler.transactionsStatus i st)
    (hexecution : s.executionIdx = σ.scheduler.executionIdx)
    (hvalidation : s.validationIdx = σ.scheduler.validationIdx)
    (hcovers : Covers s p i ∨ ∃ w' ≠ w, (σ.point w').Attends i (s.statusOf i))
    (hdeps : ∀ j ≠ i, (∃ b, j ∈ σ.scheduler.transactionsDependents b) →
      ∃ b, j ∈ s.transactionsDependents b)
    (hexecuting : ∀ v, q.charge.execution = some v → v.txIdx = i ∨ p.charge.execution = some v)
    (haborting : ∀ v, q.charge.abortion = some v → v.txIdx = i ∨ p.charge.abortion = some v)
    (hseeks : ∀ j ≠ i, q.SeeksExecution j → p.SeeksExecution j)
    (hseeksToo : ∀ j, q.SeeksValidation j → p.SeeksValidation j ∨ j = i ∧ ¬ σ.Locked i)
    (hp : p.Searches σ.scheduler.blockSize ∧ p.SearchesToo σ.scheduler.blockSize)
    (hbounded : ∀ v flags m, p ≠ .bounded v flags m)
    (hclosing : ∀ v flags, p ≠ .closing v flags) : Passes σ w s q p := by
  refine ⟨hsize, ?_, ?_, ?_, ?_, fun _ => .inl hp.1, fun _ => .inl hp.2⟩
  · intro j hj hold
    by_cases hji : j = i
    · exact hji ▸ hcovers
    left
    have hst : s.statusOf j = σ.scheduler.statusOf j := by
      simp [Scheduler.statusOf, hstatus, hji]
    have hold : Covers σ.scheduler q j := hold hst
    have hse := hseeks j hji
    have hsv := hseeksToo j
    have hd := hdeps j hji
    unfold Covers at hold ⊢
    rw [hst]
    cases h : σ.scheduler.statusOf j <;> grind
  · exact fun v flags m heq => absurd heq (hbounded v flags m)
  · intro j _ hlocked hold
    grind
  · exact fun v flags heq => absurd heq (hclosing v flags)

lemma Attended.hand (h : Attended σ) (l : List TxVersion) : Attended { σ with handedOut := l } :=
  ⟨h.tx, h.bounded, h.closing, h.searches, h.searchesToo⟩

end Passing

section Move
variable [DecidableEq W] {σ : Threads W} {w : W} {q p : Point} {s : Scheduler}

/-- Somebody else does, or the worker does where it now stands. -/
lemma exists_move {P : Point → Prop} (h : ∃ w', P (σ.point w')) (hP : P (σ.point w) → P p) :
    ∃ w', P ((σ.move w p s).point w') := by
  obtain ⟨w', hw'⟩ := h
  by_cases hww : w' = w
  · subst hww
    exact ⟨w', by simpa [Threads.move] using hP hw'⟩
  · exact ⟨w', by simpa [Threads.move, hww] using hw'⟩

lemma exists_move_self {P : Point → Prop} (hp : P p) : ∃ w', P ((σ.move w p s).point w') :=
  ⟨w, by simpa [Threads.move] using hp⟩

lemma Attended.move (hbound : Bounded σ) (h : Attended σ) (hw : σ.point w = q)
    (hpass : Passes σ w s q p) : Attended (σ.move w p s) := by
  have hsize : s.blockSize = σ.scheduler.blockSize := hpass.size
  constructor
  case tx =>
    intro j hlt
    show s.Finds j (s.statusOf j) ∨ ∃ w', ((σ.move w p s).point w').Attends j (s.statusOf j)
    have hj : j < σ.scheduler.blockSize := hsize ▸ hlt
    have hnew : (Covers s p j ∨ ∃ w' ≠ w, (σ.point w').Attends j (s.statusOf j)) →
        s.Finds j (s.statusOf j) ∨ ∃ w', ((σ.move w p s).point w').Attends j (s.statusOf j) := by
      rintro ((hf | hp) | ⟨w', hww, hw'⟩)
      · exact .inl hf
      · exact .inr (exists_move_self (P := fun q => q.Attends j (s.statusOf j)) hp)
      · exact .inr ⟨w', by simpa [Threads.move, hww] using hw'⟩
    apply hnew
    by_cases hst : s.statusOf j = σ.scheduler.statusOf j
    · obtain hf | ⟨w', hw'⟩ := h.tx j hj
      · exact hpass.tx j hj fun _ => .inl hf
      · by_cases hww : w' = w
        · subst hww
          exact hpass.tx j hj fun _ => .inr (hw ▸ hw')
        · exact .inr ⟨w', hww, hst ▸ hw'⟩
    · exact hpass.tx j hj fun heq => absurd heq hst
  case bounded =>
    intro w' v flags m hw'
    by_cases hww : w' = w
    · subst hww
      exact hpass.bounded v flags m (by simpa [Threads.move] using hw')
    · exact h.bounded w' v flags m (by simpa [Threads.move, hww] using hw')
  case closing =>
    intro w' v flags hw'
    show s.validationIdx ≤ v.txIdx ∨ _
    by_cases hww : w' = w
    · subst hww
      exact .inl (hpass.closing v flags (by simpa [Threads.move] using hw'))
    · have hw' : σ.point w' = .closing v flags := by simpa [Threads.move, hww] using hw'
      have hv := hbound w' v (by rw [hw']; rfl)
      have hlocked : σ.Locked v.txIdx := ⟨w', by rw [hw']; rfl⟩
      have hnew := hpass.validation v.txIdx hv hlocked
      have hself := exists_move_self (P := fun q => q.SeeksValidation v.txIdx) (σ := σ) (w := w)
        (p := p) (s := s)
      obtain hle | ⟨u, hu⟩ := h.closing w' v flags hw'
      · exact (hnew (.inl hle)).imp_right hself
      · by_cases huw : u = w
        · subst huw
          exact (hnew (.inr (hw ▸ hu))).imp_right hself
        · exact .inr ⟨u, by simpa [Threads.move, huw] using hu⟩
  case searches =>
    intro hlt
    show ∃ w', ((σ.move w p s).point w').Searches s.blockSize
    rw [hsize]
    obtain hp | ⟨hlt', hnot⟩ := hpass.searches (hsize ▸ hlt)
    · exact exists_move_self (P := fun q => q.Searches σ.scheduler.blockSize) hp
    · exact exists_move (P := fun q => q.Searches σ.scheduler.blockSize) (h.searches hlt')
        fun hq => absurd (hw ▸ hq) hnot
  case searchesToo =>
    intro hlt
    show ∃ w', ((σ.move w p s).point w').SearchesToo s.blockSize
    rw [hsize]
    obtain hp | ⟨hlt', hnot⟩ := hpass.searchesToo (hsize ▸ hlt)
    · exact exists_move_self (P := fun q => q.SearchesToo σ.scheduler.blockSize) hp
    · exact exists_move (P := fun q => q.SearchesToo σ.scheduler.blockSize) (h.searchesToo hlt')
        fun hq => absurd (hw ▸ hq) hnot

attribute [local grind] Covers Scheduler.Finds Point.Attends Point.SeeksExecution
  Point.SeeksValidation Point.Searches Point.SearchesToo Point.charge Charge.execution
  Charge.abortion

attribute [local grind =] Function.update_apply
attribute [local grind] Scheduler.versionOf

attribute [local grind =] Scheduler.withExecutionIdx_executionIdx
  Scheduler.withExecutionIdx_validationIdx Scheduler.withValidationIdx_executionIdx
  Scheduler.withValidationIdx_validationIdx Scheduler.withMinValidationIdx_executionIdx
  Scheduler.withMinValidationIdx_validationIdx

/-- The execution of `i` is handed out to a worker that looks at it. -/
lemma Attended.execute (hbound : Bounded σ) (h : Attended σ) (hw : σ.point w = q) {i : ℕ}
    (hcharge : q.charge = .free) (hseeks : ∀ j ≠ i, ¬ q.SeeksExecution j)
    (hseeksToo : ∀ j, q.SeeksValidation j → j = i) (hlocked : ¬ σ.Locked i) :
    Attended { σ.move w (.executing (σ.scheduler.versionOf i)) (σ.scheduler.setStatus i .executing)
      with handedOut := σ.scheduler.versionOf i :: σ.handedOut } := by
  apply Attended.hand (σ := σ.move w _ _)
  refine h.move hbound hw (.update (i := i) rfl rfl rfl rfl ?_ ?_ ?_ ?_ ?_ ?_ ?_ ?_ ?_)
  · left; right
    simp [Point.Attends, Point.charge, Charge.execution, Scheduler.versionOf]
  · exact fun j _ hb => hb
  all_goals grind

lemma Attended.take (hbound : Bounded σ) (h : Attended σ) (hw : σ.point w = q) {i : ℕ}
    (hcharge : q.charge = .free) (hseeks : ∀ j ≠ i, ¬ q.SeeksExecution j)
    (hseeksToo : ∀ j, ¬ q.SeeksValidation j) (hlocked : ¬ σ.Locked i) : Attended (σ.take w i) := by
  unfold Threads.take Scheduler.tryExecute
  by_cases hready : i < σ.scheduler.blockSize ∧ σ.scheduler.statusOf i = .readyToExecute
  · rw [if_pos hready]
    exact h.execute hbound hw hcharge hseeks (fun j hj => absurd hj (hseeksToo j)) hlocked
  · rw [if_neg hready]
    refine h.move hbound hw (.silent rfl rfl rfl ?_ ?_ ?_ ?_ ?_ ?_ ?_)
    all_goals grind

theorem Attended.step {σ' : Threads W} (hbound : Bounded σ)
    (h : Attended σ) (hstep : Step σ σ') (hnot : σ'.scheduler.aborted = false) : Attended σ' := by
  cases hstep with
  | @loadAborted w hw =>
    have hrun : σ.scheduler.aborted = false := hnot
    rw [hrun, if_neg (by simp)]
    refine h.move hbound hw (.silent rfl rfl rfl ?_ ?_ ?_ ?_ ?_ ?_ ?_)
    all_goals grind
  | loadExecutionIdx hw =>
    refine h.move hbound hw (.silent rfl rfl rfl ?_ ?_ ?_ ?_ ?_ ?_ ?_)
    all_goals grind
  | loadValidationIdx hw =>
    refine h.move hbound hw (.silent rfl rfl rfl ?_ ?_ ?_ ?_ ?_ ?_ ?_)
    all_goals grind
  | loadNumValidated hw _ =>
    refine h.move hbound hw (.silent rfl rfl rfl ?_ ?_ ?_ ?_ ?_ ?_ ?_)
    all_goals grind
  | loadMinValidationIdx hw =>
    refine h.move hbound hw (.silent rfl rfl rfl ?_ ?_ ?_ ?_ ?_ ?_ ?_)
    all_goals grind
  | takeValidationIdx hw _ _ =>
    refine h.move hbound hw (.silent rfl rfl rfl ?_ ?_ ?_ ?_ ?_ ?_ ?_)
    all_goals grind
  | fallThrough hw _ _ =>
    refine h.move hbound hw (.silent rfl rfl rfl ?_ ?_ ?_ ?_ ?_ ?_ ?_)
    all_goals grind
  | pastEnd hw _ =>
    refine h.move hbound hw (.silent rfl rfl rfl ?_ ?_ ?_ ?_ ?_ ?_ ?_)
    all_goals grind
  | steal hw hj hlocked hready =>
    exact h.execute hbound hw rfl (by grind) (by grind) hlocked
  | validate hw hj hlocked hdone =>
    refine h.move hbound hw (.silent rfl rfl rfl ?_ ?_ ?_ ?_ ?_ ?_ ?_)
    all_goals grind [Scheduler.Done]
  | skipAborting hw hj hlocked hst =>
    refine h.move hbound hw (.silent rfl rfl rfl ?_ ?_ ?_ ?_ ?_ ?_ ?_)
    all_goals grind
  | skipExecuting hw hj hlocked hst =>
    refine h.move hbound hw (.silent rfl rfl rfl ?_ ?_ ?_ ?_ ?_ ?_ ?_)
    all_goals grind
  | takeExecutionIdx hw =>
    refine h.move hbound hw (.silent rfl rfl rfl ?_ ?_ ?_ ?_ ?_ ?_ ?_)
    all_goals grind
  | tryExecute hw hlocked => exact h.take hbound hw rfl (by grind) (by grind) hlocked
  | block lower hw =>
    refine h.move hbound hw (.silent rfl rfl rfl ?_ ?_ ?_ ?_ ?_ ?_ ?_)
    all_goals grind
  | @addDependency w v b lower hw hlocked =>
    rw [Scheduler.addDependency_eq]
    by_cases hdone : σ.scheduler.Done b
    · rw [if_pos hdone]
      refine h.move hbound hw (.silent rfl rfl rfl ?_ ?_ ?_ ?_ ?_ ?_ ?_)
      all_goals grind
    · rw [if_neg hdone]
      refine h.move hbound hw (.update (i := v.txIdx) rfl rfl rfl rfl ?_ ?_ ?_ ?_ ?_ ?_ ?_ ?_ ?_)
      · left; left
        rw [Scheduler.withDependents_statusOf, Scheduler.setStatus_statusOf, if_pos rfl]
        exact ⟨b, by simp⟩
      · rintro j _ ⟨b', hb'⟩
        refine ⟨b', ?_⟩
        by_cases hbb : b' = b
        · subst hbb
          simp [hb']
        · simpa [hbb] using hb'
      all_goals grind
  | abort hw => simp [Threads.move, Scheduler.abort] at hnot
  | leave hab => exact absurd (hnot.symm.trans hab) (by simp)
  | execute flags hw =>
    refine h.move hbound hw (.silent rfl rfl rfl ?_ ?_ ?_ ?_ ?_ ?_ ?_)
    all_goals grind
  | lock hw _ =>
    refine h.move hbound hw (.silent rfl rfl rfl ?_ ?_ ?_ ?_ ?_ ?_ ?_)
    all_goals grind
  | @setReadyStatus w v flags d deps hw hdeps _ =>
    refine h.move hbound hw (.update (i := d) rfl rfl rfl rfl ?_ ?_ ?_ ?_ ?_ ?_ ?_ ?_ ?_)
    · left; right
      simp [Point.Attends, Point.SeeksExecution]
    · rintro j hj ⟨b', hb'⟩
      refine ⟨b', ?_⟩
      by_cases hbb : b' = v.txIdx
      · subst hbb
        simpa [hdeps, hj] using hb'
      · simpa [hbb] using hb'
    all_goals grind
  | lowerExecutionIdx hw =>
    refine h.move hbound hw (.silent rfl rfl rfl ?_ ?_ ?_ ?_ ?_ ?_ ?_)
    all_goals grind
  | lowerMinValidationIdx hw hdeps _ =>
    refine h.move hbound hw (.silent rfl rfl rfl ?_ ?_ ?_ ?_ ?_ ?_ ?_)
    all_goals grind
  | loadMinValidationIdxToo hw _ hflags => simp at hflags
  | @noBound w v flags m hw hm =>
    have hle := h.bounded w v flags m hw
    have hv := hbound w v (by rw [hw]; rfl)
    omega
  | @lowerToBound w v flags m hw _ hm =>
    have hle := h.bounded w v flags m hw
    omega
  | compareValidationIdx hw _ _ =>
    refine h.move hbound hw (.silent rfl rfl rfl ?_ ?_ ?_ ?_ ?_ ?_ ?_)
    all_goals grind
  | lowerValidationIdx hw =>
    split
    all_goals refine h.move hbound hw (.silent rfl rfl rfl ?_ ?_ ?_ ?_ ?_ ?_ ?_)
    all_goals grind
  | @report w v flags hw _ =>
    refine h.move hbound hw (.update (i := v.txIdx) rfl rfl rfl rfl ?_ ?_ ?_ ?_ ?_ ?_ ?_ ?_ ?_)
    · left; right
      simp [Point.Attends, Point.SeeksValidation]
    · exact fun j _ hb => hb
    all_goals grind
  | markValidated _ hflags => simp at hflags
  | @close w v flags hw =>
    rw [FinishExecFlags.contains_needValidation, if_pos rfl]
    refine h.move hbound hw (.update (i := v.txIdx) rfl rfl rfl rfl ?_ ?_ ?_ ?_ ?_ ?_ ?_ ?_ ?_)
    · rw [Covers, Scheduler.setStatus_statusOf, if_pos rfl]
      obtain hle | ⟨w', hw'⟩ := h.closing w v flags hw
      · exact .inl (.inl hle)
      · refine .inr ⟨w', ?_, hw'⟩
        rintro rfl
        simp [hw, Point.SeeksValidation] at hw'
    · exact fun j _ hb => hb
    all_goals grind
  | validateReadLocations valid hw =>
    refine h.move hbound hw (.silent rfl rfl rfl ?_ ?_ ?_ ?_ ?_ ?_ ?_)
    all_goals grind
  | @tryValidationAbort w v hw _ =>
    rw [Scheduler.tryValidationAbort_eq]
    by_cases hdone : σ.scheduler.Done v.txIdx
    · rw [if_pos hdone]
      refine h.move hbound hw (.update (i := v.txIdx) rfl rfl rfl rfl ?_ ?_ ?_ ?_ ?_ ?_ ?_ ?_ ?_)
      · left; right
        simp [Point.Attends, Point.charge, Charge.abortion]
      · exact fun j _ hb => hb
      all_goals grind
    · rw [if_neg hdone]
      refine h.move hbound hw (.silent rfl rfl rfl ?_ ?_ ?_ ?_ ?_ ?_ ?_)
      all_goals grind
  | @setReadyStatusToo w v hw _ =>
    refine h.move hbound hw (.update (i := v.txIdx) rfl rfl rfl rfl ?_ ?_ ?_ ?_ ?_ ?_ ?_ ?_ ?_)
    · left; right
      simp [Point.Attends, Point.SeeksExecution]
    · exact fun j _ hb => hb
    all_goals grind
  | lowerValidationIdxToo hw =>
    refine h.move hbound hw (.silent rfl rfl rfl ?_ ?_ ?_ ?_ ?_ ?_ ?_)
    all_goals grind
  | compareExecutionIdx hw =>
    refine h.move hbound hw (.silent rfl rfl rfl ?_ ?_ ?_ ?_ ?_ ?_ ?_)
    all_goals grind
  | tryExecuteAgain hw hlocked => exact h.take hbound hw rfl (by grind) (by grind) hlocked
  | @finishValidation w v hw _ =>
    simp only [Scheduler.finishValidation, Bool.false_eq_true, if_false]
    by_cases hst : σ.scheduler.statusOf v.txIdx = .executed
    · rw [if_pos hst]
      refine h.move hbound hw (.update (i := v.txIdx) rfl rfl rfl rfl ?_ ?_ ?_ ?_ ?_ ?_ ?_ ?_ ?_)
      · left; left
        simp [Scheduler.Finds, Scheduler.markValidated]
      · exact fun j _ hb => hb
      all_goals grind
    · rw [if_neg hst]
      refine h.move hbound hw (.silent rfl rfl rfl ?_ ?_ ?_ ?_ ?_ ?_ ?_)
      all_goals grind

end Move

section Reachable
variable [DecidableEq W] {n : ℕ} {σ : Threads W}

lemma take_aborted (w : W) (j : ℕ) :
    (σ.take w j).scheduler.aborted = σ.scheduler.aborted := by
  unfold Threads.take Scheduler.tryExecute
  by_cases h : j < σ.scheduler.blockSize ∧ σ.scheduler.statusOf j = .readyToExecute
  · rw [if_pos h]
    rfl
  · rw [if_neg h]
    rfl

/-- No step takes an abort back. -/
lemma Step.notAborted {σ' : Threads W} (h : Step σ σ') (hnot : σ'.scheduler.aborted = false) :
    σ.scheduler.aborted = false := by
  cases h with
  | tryExecute => exact (take_aborted _ _).symm.trans hnot
  | tryExecuteAgain => exact (take_aborted _ _).symm.trans hnot
  | addDependency =>
    rw [Scheduler.addDependency_eq] at hnot
    split at hnot <;> exact hnot
  | tryValidationAbort =>
    rw [Scheduler.tryValidationAbort_eq] at hnot
    split at hnot <;> exact hnot
  | finishValidation =>
    simp only [Scheduler.finishValidation, Bool.false_eq_true, if_false] at hnot
    split at hnot <;> exact hnot
  | lowerToBound => split at hnot <;> exact hnot
  | lowerValidationIdx => split at hnot <;> exact hnot
  | close => split at hnot <;> exact hnot
  | abort => simp [Threads.move, Scheduler.abort] at hnot
  | _ => exact hnot

lemma attended_of_reachable [Nonempty W] (h : (system W n).Reachable σ)
    (hnot : σ.scheduler.aborted = false) : Attended σ := by
  induction h with
  | @init σ h =>
    obtain ⟨hs, hpoint, -⟩ := h
    obtain ⟨w⟩ := ‹Nonempty W›
    have hsearches : ∀ k, (σ.point w).Searches k ∧ (σ.point w).SearchesToo k := by
      intro k
      rw [hpoint]
      exact ⟨trivial, trivial⟩
    refine ⟨?_, ?_, ?_, fun _ => ⟨w, (hsearches _).1⟩, fun _ => ⟨w, (hsearches _).2⟩⟩
    · intro j _
      left
      simp [hs, Scheduler.new, Scheduler.statusOf, Scheduler.Finds]
    · intro w v flags m hw
      simp [hpoint] at hw
    · intro w v flags hw
      simp [hpoint] at hw
  | step hreach hstep ih =>
    have hbound := bounded_of_reachable hreach
    exact (ih (hstep.notAborted hnot)).step hbound hstep hnot

/-- However the accesses of the workers interleave: when every worker has left and nobody has
aborted the block, every transaction is validated. There has to be a worker. -/
theorem all_validated_of_gone [Nonempty W] (h : (system W n).Reachable σ)
    (hnot : σ.scheduler.aborted = false) (hgone : ∀ w, σ.point w = .gone) {j : ℕ} (hj : j < n) :
    σ.scheduler.statusOf j = .validated := by
  obtain ⟨hinv, hsize⟩ := board_invariant h
  have hattended := attended_of_reachable h hnot
  have hsize : σ.scheduler.blockSize = n := hsize
  have hexecution : n ≤ σ.scheduler.executionIdx := by
    by_contra hlt
    obtain ⟨w, hw⟩ := hattended.searches (by omega)
    simp [hgone w, Point.Searches] at hw
  have hvalidation : n ≤ σ.scheduler.validationIdx := by
    by_contra hlt
    obtain ⟨w, hw⟩ := hattended.searchesToo (by omega)
    simp [hgone w, Point.SearchesToo] at hw
  induction j using Nat.strong_induction_on with
  | h j ih =>
    have hnobody : ∀ w status, ¬ (σ.point w).Attends j status := by
      intro w status
      rw [hgone w]
      cases status <;>
        simp [Point.Attends, Point.SeeksExecution, Point.SeeksValidation, Point.charge,
          Charge.execution, Charge.abortion]
    have hfinds : σ.scheduler.Finds j (σ.scheduler.statusOf j) := by
      obtain hf | ⟨w, hw⟩ := hattended.tx j (by omega)
      · exact hf
      · exact absurd hw (hnobody w _)
    cases hst : σ.scheduler.statusOf j with
    | readyToExecute =>
      rw [hst] at hfinds
      have hle : σ.scheduler.executionIdx ≤ j := hfinds
      omega
    | executing =>
      rw [hst] at hfinds
      exact absurd hfinds id
    | executed =>
      rw [hst] at hfinds
      have hle : σ.scheduler.validationIdx ≤ j := hfinds
      omega
    | validated => rfl
    | aborting =>
      rw [hst] at hfinds
      obtain ⟨b, hb⟩ := hfinds
      obtain ⟨hlt, -, -, hdone⟩ := hinv.parked b j hb
      -- the transaction that this one waits for is lower, so it is validated
      exact absurd (.inr (ih b hlt (by omega))) hdone

/-- The transaction that has waited is validated as well. -/
theorem all_validated_of_gone_resumed :
    ∃ σ : Threads Bool, (system Bool 2).Reachable σ ∧ (∀ w, σ.point w = .gone) ∧
      ∀ j < 2, σ.scheduler.statusOf j = .validated := by
  obtain ⟨σ, hreach, -, hnot, hgone⟩ := resumed_gone
  exact ⟨σ, hreach, hgone, fun j hj => all_validated_of_gone hreach hnot hgone hj⟩

end Reachable

end Threads

end Pevm
