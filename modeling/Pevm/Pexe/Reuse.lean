import Pevm.LazyEvaluation
import Pevm.Pexe.Aborts

/-!
# Blocks executed one after the other

The struct keeps the slots of the results and the abort reason from one call of
`execute_revm_parallel` to the next. A call takes the reason before it returns, and does not
read a slot that it has not filled. So what it can return does not depend on what the struct
was used for before.
-/
namespace Pevm
open Transition Saturating

/-- A receipt, with the gas used so far in the block; status and logs are in `outcome`. -/
structure Receipt (L : Type) where
  cumulativeGasUsed : U64
  outcome : L

/-- `PexeTxExecutionResult`: what is returned of a transaction, its receipt and its state changes.
-/
structure PexeTxExecutionResult (L S : Type) where
  receipt : Receipt L
  state : S

/-- The result with its cumulative gas filled in, as the last loop over the results does. -/
def PexeTxExecutionResult.withGas {L S : Type} (result : PexeTxExecutionResult L S) (gas : U64) :
    PexeTxExecutionResult L S :=
  { result with receipt := { result.receipt with cumulativeGasUsed := gas } }

/-- The errors that `execute_revm_parallel` returns. -/
inductive BlockError (ε : Type)
  | executionError (error : ε)
  /-- From the evaluation of the lazy addresses. -/
  | evaluation (error : PexeError)

/-- What the call for a block returns: a result for every transaction, or an error. -/
abbrev PexeResult (ρ ε : Type) := Except (BlockError ε) (List ρ)

/-- What the struct keeps from block to block: the slots for results, and the abort reason. -/
structure Resources (ρ ε : Type) where
  executionResults : List (Option ρ)
  abortReason : Option (Pexe.AbortReason ε)

/-- A new struct has no slots and no abort reason. -/
def Resources.new {ρ ε : Type} : Resources ρ ε := ⟨[], none⟩

section Slots
variable {ρ L S : Type}

/-- Slots are added until there is one for every transaction; those that are there stay as they are.
-/
def grow (blockSize : ℕ) (slots : List (Option ρ)) : List (Option ρ) :=
  slots ++ List.replicate (blockSize - slots.length) none

lemma le_length_grow (n : ℕ) (slots : List (Option ρ)) : n ≤ (grow n slots).length := by
  unfold grow
  rw [List.length_append, List.length_replicate]
  omega

/-- The results are taken from their slots and the gas is summed up. An empty slot is a panic. -/
def collect : U64 → List (Option (PexeTxExecutionResult L S)) →
    Option (List (PexeTxExecutionResult L S))
  | _, [] => some []
  | _, none :: _ => none
  | cumulativeGasUsed, some result :: slots =>
    let cumulativeGasUsed := saturatingAdd cumulativeGasUsed result.receipt.cumulativeGasUsed
    (collect cumulativeGasUsed slots).map (result.withGas cumulativeGasUsed :: ·)

lemma collect_ne_none {slots : List (Option (PexeTxExecutionResult L S))}
    (h : ∀ slot ∈ slots, slot.isSome = true) (gas : U64) : collect gas slots ≠ none := by
  induction slots generalizing gas with
  | nil => simp [collect]
  | cons slot slots ih =>
    obtain ⟨result, rfl⟩ := Option.isSome_iff_exists.mp (h slot List.mem_cons_self)
    have hrest := ih (fun slot hslot => h slot (List.mem_cons_of_mem _ hslot))
      (saturatingAdd gas result.receipt.cumulativeGasUsed)
    simpa [collect] using hrest

/-- The slots after some results are stored, one after the other. -/
def store (stores : List (ℕ × ρ)) (slots : List (Option ρ)) : List (Option ρ) :=
  stores.foldl (fun slots s => slots.set s.1 (some s.2)) slots

lemma store_append (stores stores' : List (ℕ × ρ)) (slots : List (Option ρ)) :
    store (stores ++ stores') slots = store stores' (store stores slots) := List.foldl_append

@[simp] lemma length_store (stores : List (ℕ × ρ)) (slots : List (Option ρ)) :
    (store stores slots).length = slots.length := by
  induction stores generalizing slots with
  | nil => rfl
  | cons s stores ih =>
    show (store stores (slots.set s.1 (some s.2))).length = _
    rw [ih, List.length_set]

/-- A slot holds what was stored there last, or what it held before. -/
lemma getElem?_store (stores : List (ℕ × ρ)) {slots : List (Option ρ)} {j : ℕ}
    (hj : j < slots.length) :
    (store stores slots)[j]? = ((stores.reverse.lookup j).map some).or slots[j]? := by
  induction stores using List.reverseRecOn with
  | nil => rfl
  | append_singleton stores s ih =>
    have hlast : store (stores ++ [s]) slots = (store stores slots).set s.1 (some s.2) :=
      store_append ..
    rw [hlast, List.reverse_append, List.reverse_singleton, List.singleton_append,
      List.lookup_cons]
    by_cases hs : j = s.1
    · subst hs
      rw [List.getElem?_set_self (by rwa [length_store])]
      simp
    · have hne : s.1 ≠ j := fun h => hs h.symm
      have hbeq : (j == s.1) = false := by simpa using hs
      rw [List.getElem?_set_ne hne, ih, hbeq]

/-- Where all the slots are filled by the stores, it does not matter what they held before. -/
lemma take_store_grow (stores : List (ℕ × ρ)) (n : ℕ) (slots : List (Option ρ))
    (hfilled : ∀ j < n, (((store stores (grow n [])))[j]?.join).isSome = true) :
    (store stores (grow n slots)).take n = (store stores (grow n [])).take n := by
  apply List.ext_getElem?
  intro j
  rw [List.getElem?_take, List.getElem?_take]
  split_ifs with hj
  · have hslots := lt_of_lt_of_le hj (le_length_grow n slots)
    have hfresh := lt_of_lt_of_le hj (le_length_grow (ρ := ρ) n [])
    have hsome := hfilled j hj
    have hnone : (grow n ([] : List (Option ρ)))[j]? = some none := by
      simp [grow, hj]
    rw [getElem?_store stores hfresh, hnone] at hsome
    rw [getElem?_store stores hslots, getElem?_store stores hfresh]
    cases hlookup : stores.reverse.lookup j with
    | none =>
      rw [hlookup] at hsome
      cases hsome
    | some result => rfl
  · rfl

end Slots

namespace Attempt
variable {W J κ ν ρ ε : Type} [DecidableEq W] [DecidableEq κ]

/-- The same moment of a block with other slots. -/
def withResults (σ : Attempt W J κ ν ρ ε) (slots : List (Option ρ)) : Attempt W J κ ν ρ ε :=
  { σ with executionResults := slots }

/-- No call reads a slot. -/
lemma Step.withResults {vm : AbortingVm J κ ν ρ ε} {σ σ' : Attempt W J κ ν ρ ε}
    (h : Step vm σ σ') : ∃ stores, σ'.executionResults = store stores σ.executionResults ∧
      ∀ slots, Step vm (σ.withResults slots) (σ'.withResults (store stores slots)) := by
  cases h with
  | nextTask hw => exact ⟨[], rfl, fun _ => .nextTask hw⟩
  | read hw hnext => exact ⟨[], rfl, fun _ => .read hw hnext⟩
  | retry hw hnext => exact ⟨[], rfl, fun _ => .retry hw hnext⟩
  | @block w v job b hw hnext =>
    refine ⟨[], rfl, fun slots => ?_⟩
    have hw' : (σ.withResults slots).stage w = .working (.executing v job) := hw
    exact .block hw' hnext
  | addDependency hw => exact ⟨[], rfl, fun _ => .addDependency hw⟩
  | startAgain hw hreason => exact ⟨[], rfl, fun _ => .startAgain hw hreason⟩
  | giveUp hw hreason => exact ⟨[], rfl, fun _ => .giveUp hw hreason⟩
  | record hw hnext => exact ⟨[], rfl, fun _ => .record hw hnext⟩
  | @storeResult w v flags result hw =>
    exact ⟨[(v.txIdx, result)], rfl, fun _ => .storeResult hw⟩
  | finishExecution hw => exact ⟨[], rfl, fun _ => .finishExecution hw⟩
  | fail hw hfatal => exact ⟨[], rfl, fun _ => .fail hw hfatal⟩
  | abort hw => exact ⟨[], rfl, fun _ => .abort hw⟩
  | setReason hw => exact ⟨[], rfl, fun _ => .setReason hw⟩
  | validateReadLocations hw => exact ⟨[], rfl, fun _ => .validateReadLocations hw⟩
  | tryValidationAbort hw => exact ⟨[], rfl, fun _ => .tryValidationAbort hw⟩
  | convertWritesToEstimates hw => exact ⟨[], rfl, fun _ => .convertWritesToEstimates hw⟩
  | finishAbort hw => exact ⟨[], rfl, fun _ => .finishAbort hw⟩
  | finishValidation hw => exact ⟨[], rfl, fun _ => .finishValidation hw⟩
  | breakOff hw hreason => exact ⟨[], rfl, fun _ => .breakOff hw hreason⟩
  | goOn hw hreason => exact ⟨[], rfl, fun _ => .goOn hw hreason⟩

/-- The same run is possible from any slots, and stores the same results in them. -/
theorem reachable_withResults {vm : AbortingVm J κ ν ρ ε} {n : ℕ}
    {estimatedLocations : List (κ × List ℕ)} {lazyAddresses : Finset Address}
    {slots : List (Option ρ)} {abortReason : Option (Pexe.AbortReason ε)}
    {σ : Attempt W J κ ν ρ ε}
    (h : (system W vm n estimatedLocations lazyAddresses slots abortReason).Reachable σ) :
    ∃ stores, σ.executionResults = store stores slots ∧ ∀ slots',
      (system W vm n estimatedLocations lazyAddresses slots' abortReason).Reachable
        (σ.withResults (store stores slots')) := by
  induction h with
  | init hinit =>
    obtain ⟨hscheduler, hresults, hmem, hlazy, hreason, hstage⟩ := hinit
    exact ⟨[], hresults, fun _ => .init ⟨hscheduler, rfl, hmem, hlazy, hreason, hstage⟩⟩
  | @step σ σ' _ hs ih =>
    obtain ⟨stores, hresults, hreach⟩ := ih
    obtain ⟨last, hlast, hstep⟩ := Step.withResults hs
    refine ⟨stores ++ last, by rw [hlast, hresults, store_append], fun slots' => ?_⟩
    rw [store_append]
    exact .step (hreach slots') (hstep _)

end Attempt

/-- A call of `execute_revm_parallel`. The evaluation and the sequential execution are relations:
the storage that they read may answer differently each time. -/
structure ParallelBlock (J κ ν L S ε : Type) where
  concurrencyLevel : ℕ
  nonZero : concurrencyLevel ≠ 0
  blockSize : ℕ
  vm : AbortingVm J κ ν (PexeTxExecutionResult L S) ε
  estimatedLocations : List (κ × List ℕ)
  lazyAddresses : Finset Address
  /-- The evaluation of the lazy addresses on the collected results. -/
  evaluate : MvMemory κ ν → List Address → List (PexeTxExecutionResult L S) →
    Except PexeError (List (PexeTxExecutionResult L S)) → Prop
  /-- `execute_revm_sequential`. -/
  sequential : PexeResult (PexeTxExecutionResult L S) ε → Prop

/-- How a call ends: it returns and leaves the struct behind, or it panics. -/
inductive Ending (ρ ε : Type)
  | returned (result : PexeResult ρ ε) (after : Resources ρ ε)
  | panicked

namespace ParallelBlock
variable {J κ ν L S ε : Type} [DecidableEq κ]

section Call
variable (block : ParallelBlock J κ ν L S ε) (p : Resources (PexeTxExecutionResult L S) ε)

/-- The block has been run with the slots of the struct, and all workers have left. -/
structure Ends (σ : Attempt (Fin block.concurrencyLevel) J κ ν (PexeTxExecutionResult L S) ε) :
    Prop where
  reachable : (Attempt.system (Fin block.concurrencyLevel) block.vm block.blockSize
    block.estimatedLocations block.lazyAddresses (grow block.blockSize p.executionResults)
    p.abortReason).Reachable σ
  gone : ∀ w, σ.stage w = .working .gone

/-- `execute_revm_parallel`, from the struct as it is to how the call ends. -/
inductive Executes : Ending (PexeTxExecutionResult L S) ε → Prop
  | empty : block.blockSize = 0 → Executes (.returned (.ok []) p)
  | fallbackToSequential
      {σ : Attempt (Fin block.concurrencyLevel) J κ ν (PexeTxExecutionResult L S) ε}
      {result : PexeResult (PexeTxExecutionResult L S) ε} : block.blockSize ≠ 0 →
      block.Ends p σ → σ.abortReason = some .fallbackToSequential → block.sequential result →
      Executes (.returned result ⟨σ.executionResults, none⟩)
  | executionError
      {σ : Attempt (Fin block.concurrencyLevel) J κ ν (PexeTxExecutionResult L S) ε}
      {error : ε} : block.blockSize ≠ 0 → block.Ends p σ →
      σ.abortReason = some (.executionError error) →
      Executes (.returned (.error (.executionError error)) ⟨σ.executionResults, none⟩)
  | evaluated
      {σ : Attempt (Fin block.concurrencyLevel) J κ ν (PexeTxExecutionResult L S) ε}
      {results : List (PexeTxExecutionResult L S)} {addresses : List Address}
      {result : Except PexeError (List (PexeTxExecutionResult L S))} : block.blockSize ≠ 0 →
      block.Ends p σ → σ.abortReason = none →
      collect 0 (σ.executionResults.take block.blockSize) = some results →
      addresses.Nodup → addresses.toFinset = σ.lazyAddresses →
      block.evaluate σ.mvMemory addresses results result →
      Executes (.returned (result.mapError .evaluation)
        ⟨List.replicate block.blockSize none ++ σ.executionResults.drop block.blockSize, none⟩)
  | panicked
      {σ : Attempt (Fin block.concurrencyLevel) J κ ν (PexeTxExecutionResult L S) ε} :
      block.blockSize ≠ 0 → block.Ends p σ → σ.abortReason = none →
      collect 0 (σ.executionResults.take block.blockSize) = none → Executes .panicked

/-- Some run of the workers makes the call return this. -/
def CanReturn (result : PexeResult (PexeTxExecutionResult L S) ε) : Prop :=
  ∃ after, block.Executes p (.returned result after)

end Call

end ParallelBlock

/-- The struct after any number of calls, each for a block of its own and with any way to end. -/
inductive Used {L S ε : Type} : Resources (PexeTxExecutionResult L S) ε → Prop
  | new : Used .new
  | execute {J κ ν : Type} [DecidableEq κ] {block : ParallelBlock J κ ν L S ε}
      {p after : Resources (PexeTxExecutionResult L S) ε}
      {result : PexeResult (PexeTxExecutionResult L S) ε} :
      Used p → block.Executes p (.returned result after) → Used after

section Reuse
variable {J κ ν L S ε : Type} [DecidableEq κ] {block : ParallelBlock J κ ν L S ε}
  {p q : Resources (PexeTxExecutionResult L S) ε}

/-- Every call takes the abort reason before it returns. -/
lemma Used.abortReason (h : Used p) : p.abortReason = none := by
  induction h with
  | new => rfl
  | execute _ hexecutes ih =>
    cases hexecutes with
    | empty => exact ih
    | _ => rfl

/-- What a run leaves in its slots it leaves there from any other slots, too. -/
lemma ParallelBlock.Ends.replace
    {σ : Attempt (Fin block.concurrencyLevel) J κ ν (PexeTxExecutionResult L S) ε}
    (h : block.Ends p σ) (hp : p.abortReason = none) (hq : q.abortReason = none) :
    ∃ slots, block.Ends q (σ.withResults slots) ∧ (σ.abortReason = none →
      slots.take block.blockSize = σ.executionResults.take block.blockSize ∧
        ∀ slot ∈ slots.take block.blockSize, slot.isSome = true) := by
  have : Nonempty (Fin block.concurrencyLevel) := ⟨⟨0, Nat.pos_of_ne_zero block.nonZero⟩⟩
  obtain ⟨stores, hresults, hreach⟩ := Attempt.reachable_withResults h.reachable
  rw [hp] at hreach
  refine ⟨store stores (grow block.blockSize q.executionResults), ⟨?_, h.gone⟩, fun hreason => ?_⟩
  · rw [hq]
    exact hreach _
  · have hfilled := Attempt.filled_of_gone (le_length_grow _ _) (hreach (grow block.blockSize []))
      h.gone hreason
    have htake := fun slots => take_store_grow stores block.blockSize slots hfilled
    refine ⟨?_, fun slot hslot => ?_⟩
    · rw [hresults]
      exact (htake _).trans (htake _).symm
    · rw [htake] at hslot
      obtain ⟨j, hget⟩ := List.mem_iff_getElem?.mp hslot
      rw [List.getElem?_take] at hget
      split_ifs at hget with hj
      have hsome : ((store stores (grow block.blockSize []))[j]?.join).isSome = true :=
        hfilled j hj
      rwa [hget] at hsome

/-- What one struct can return another one can, as long as neither holds an abort reason. -/
lemma ParallelBlock.CanReturn.of_abortReason_none
    {result : PexeResult (PexeTxExecutionResult L S) ε} (h : block.CanReturn p result)
    (hp : p.abortReason = none) (hq : q.abortReason = none) : block.CanReturn q result := by
  obtain ⟨after, hexecutes⟩ := h
  cases hexecutes with
  | empty hsize => exact ⟨_, .empty hsize⟩
  | fallbackToSequential hsize hends hreason hsequential =>
    obtain ⟨slots, hends', -⟩ := hends.replace hp hq
    exact ⟨_, .fallbackToSequential hsize hends' hreason hsequential⟩
  | executionError hsize hends hreason =>
    obtain ⟨slots, hends', -⟩ := hends.replace hp hq
    exact ⟨_, .executionError hsize hends' hreason⟩
  | evaluated hsize hends hreason hcollect hnodup haddresses hevaluate =>
    obtain ⟨slots, hends', hslots⟩ := hends.replace hp hq
    rw [← (hslots hreason).1] at hcollect
    exact ⟨_, .evaluated hsize hends' hreason hcollect hnodup haddresses hevaluate⟩

/-- No slot that is read is empty. -/
lemma ParallelBlock.not_panicked (hp : p.abortReason = none) : ¬ block.Executes p .panicked := by
  intro h
  cases h with
  | @panicked σ hsize hends hreason hcollect =>
    obtain ⟨slots, -, hslots⟩ := hends.replace hp hp
    obtain ⟨htake, hfilled⟩ := hslots hreason
    rw [htake] at hfilled
    exact collect_ne_none hfilled 0 hcollect

/-- What a call can return does not depend on what the struct was used for before: any calls, for
blocks of any length and with any outcome, leave a struct that serves as a new one does, and never
panics. -/
theorem canReturn_used_iff (block : ParallelBlock J κ ν L S ε) (h : Used p)
    (result : PexeResult (PexeTxExecutionResult L S) ε) :
    (block.CanReturn p result ↔ block.CanReturn .new result) ∧ ¬ block.Executes p .panicked := by
  refine ⟨⟨fun hp => ?_, fun hnew => ?_⟩, ParallelBlock.not_panicked h.abortReason⟩
  · exact hp.of_abortReason_none h.abortReason rfl
  · exact hnew.of_abortReason_none rfl h.abortReason

end Reuse

section Sample

def sampleResult : PexeTxExecutionResult Unit Unit := ⟨⟨21000, ()⟩, ()⟩

/-- The first transaction goes through, the second one fails. -/
def sampleBlock : ParallelBlock Unit ℕ Unit Unit Unit Unit where
  concurrencyLevel := 2
  nonZero := by decide
  blockSize := 2
  vm :=
    { start := fun _ => ()
      next := fun v _ _ step => v.txIdx = 0 ∧ step = .finished ∅ [] .empty sampleResult
      blocking_lt := by
        intro v job mem b h
        cases h.2
      fatal := fun v _ _ reason => v.txIdx = 1 ∧ reason = .executionError ()
      lazyAddresses := fun _ _ => [] }
  estimatedLocations := []
  lazyAddresses := ∅
  evaluate := fun _ _ results result => result = .ok results
  sequential := fun result => result = .ok [sampleResult, sampleResult]

/-- After the abort the result of the first transaction is still in its slot. -/
lemma used_afterAbort :
    Used (⟨[some sampleResult, none], none⟩ : Resources (PexeTxExecutionResult Unit Unit) Unit) := by
  let start : Attempt (Fin 2) Unit ℕ Unit (PexeTxExecutionResult Unit Unit) Unit :=
    ⟨.new 2, [none, none], .new [], ∅, none, fun _ => .working .polling⟩
  have hstart : (Attempt.system (Fin 2) sampleBlock.vm 2 [] ∅ [none, none] none).Reachable
      start := .init ⟨rfl, rfl, rfl, rfl, rfl, fun _ => rfl⟩
  have htaken := hstart.step (.nextTask (w := 0) rfl)
  have hrecorded := htaken.step (.record (w := 0) (v := ⟨0, 0⟩) rfl ⟨rfl, rfl⟩)
  have hstored := hrecorded.step (.storeResult (w := 0) (v := ⟨0, 0⟩) rfl)
  -- meanwhile the other worker takes the second transaction and aborts the block
  have hother := hstored.step (.nextTask (w := 1) rfl)
  have hfailed := hother.step (.fail (w := 1) (v := ⟨1, 0⟩) rfl ⟨rfl, rfl⟩)
  have haborted := hfailed.step (.abort (w := 1) rfl)
  have hset := haborted.step (.setReason (w := 1) rfl)
  have hbroken := hset.step (.breakOff (w := 1) rfl (by simp [Attempt.move, start]))
  have hfinished := hbroken.step (.finishExecution (w := 0) (v := ⟨0, 0⟩) rfl)
  have hleft := hfinished.step (.breakOff (w := 0) rfl (by simp [Attempt.move, start]))
  have hends : sampleBlock.Ends .new _ := ⟨hleft, fun w => by fin_cases w <;> rfl⟩
  have hgone := ParallelBlock.Executes.executionError (by decide) hends rfl
  exact .execute .new hgone

/-- What is left there cannot reach the next block. -/
theorem canReturn_used_afterAbort :
    (sampleBlock.CanReturn ⟨[some sampleResult, none], none⟩ (.ok [sampleResult, sampleResult]) ↔
      sampleBlock.CanReturn .new (.ok [sampleResult, sampleResult])) ∧
    ¬ sampleBlock.Executes ⟨[some sampleResult, none], none⟩ .panicked :=
  canReturn_used_iff sampleBlock used_afterAbort _

end Sample

end Pevm
