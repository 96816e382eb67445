import Pevm.Pexe.Chronicle
import Pevm.Pexe.StorageFailure

/-!
# revm on the workers

The workers of `execute_revm_parallel` on a storage that does not change, with the new code
that their executions share. `VmDb::new` is a read of the recipient's code hash and two lookups, a
read of an account is a walk over its entries, a read of its code hash and a load of its code, and
the block goes on in between.
-/
namespace Pevm
open LazyEvaluation Transition

/-- Where revm stands in a transaction. The memories that the first parts of `VmDb::new` or of a
read have met are kept until it is answered. -/
inductive Revm (κ Bytecode L : Type)
  | opening
  | codeHashed (codeHash : MvMemory κ MemoryValue)
  | senderSought (codeHash sender : MvMemory κ MemoryValue)
  | running (program : EvmProgram Bytecode L) (db : VmDb κ)
  | walked (question : Question) (next : question.Answer Bytecode → EvmProgram Bytecode L)
      (db : VmDb κ) (walk : MvMemory κ MemoryValue)
  | hashed (question : Question) (next : question.Answer Bytecode → EvmProgram Bytecode L)
      (db : VmDb κ) (walk hash : MvMemory κ MemoryValue)

namespace Revm
variable {κ Bytecode L : Type}

/-- The database of the execution, once it has been opened. -/
def db : Revm κ Bytecode L → Option (VmDb κ)
  | opening | codeHashed _ | senderSought _ _ => none
  | running _ db | walked _ _ db _ | hashed _ _ db _ _ => some db

/-- The database is one of this transaction. -/
def Belongs (job : Revm κ Bytecode L) (v : TxVersion) : Prop := ∀ db ∈ job.db, db.txIdx = v.txIdx

instance (job : Revm κ Bytecode L) (v : TxVersion) : Decidable (job.Belongs v) :=
  inferInstanceAs (Decidable (∀ db ∈ job.db, db.txIdx = v.txIdx))

end Revm

/-- How `try_execute` goes on after a failure, where it does; an abort ends the run here. -/
def VmFailure.toStep {J κ ν ρ : Type} : VmFailure → Option (VmStep J κ ν ρ)
  | retry => some .retry
  | blocking txIdx => some (.blocking txIdx)
  | fallbackToSequential | executionError _ => none

namespace ParallelEvmBlock
variable {κ Code Bytecode L : Type} [DecidableEq κ] (block : ParallelEvmBlock κ Code Bytecode L)
  (storage : FullStorage Code) (newBytecodes : B256 → Option Bytecode)

/-- The code that an execution shares before it records. -/
def codes (db : VmDb κ) : Except EvmError (ResultAndState Bytecode) → List (B256 × Option Bytecode)
  | .ok result => Vm.newBytecodes block.hashes.location db result.state
  | .error _ => []

/-- How `try_execute` goes on with what a piece of an execution comes to. -/
def resume (found : Except VmFailure (Revm κ Bytecode L)) :
    Option (VmStep (Revm κ Bytecode L) κ MemoryValue (PexeTxExecutionResult L (TxState Code))) :=
  match found with
  | .ok job => some (.running job)
  | .error failure => failure.toStep

/-- `Vm::execute`, one access to the memory at a time. Nothing where the worker aborts or panics,
or has code left to share. -/
def goOn (v : TxVersion) (mvMemory : MvMemory κ MemoryValue) : Revm κ Bytecode L →
    Option (VmStep (Revm κ Bytecode L) κ MemoryValue (PexeTxExecutionResult L (TxState Code)))
  | .opening => some (.running (.codeHashed mvMemory))
  | .codeHashed codeHash => some (.running (.senderSought codeHash mvMemory))
  | .senderSought codeHash sender => (block.txs[v.txIdx]?).bind fun tx =>
      resume (((VmDb.newAcross (block.envAt storage.toStorage codeHash newBytecodes)
        (block.envAt storage.toStorage sender newBytecodes)
        (block.envAt storage.toStorage mvMemory newBytecodes) v.txIdx
          tx.toTxEnv).mapError .ofReadError).map (.running (block.program v.txIdx)))
  | .running (.ask question next) db => some (.running (.walked question next db mvMemory))
  | .walked question next db walk => some (.running (.hashed question next db walk mvMemory))
  | .hashed question next db walk hash =>
      resume (((VmDb.Watched.answer db (block.envAt storage.toStorage walk newBytecodes)
        (block.envAt storage.toStorage hash newBytecodes) block.emptyCode storage
          question).result.mapError .ofReadError).map fun found =>
            .running (next found.1) found.2)
  | .running (.done transacted outcome calculateTxL1Cost) db =>
      (block.txs[v.txIdx]?).bind fun tx =>
        if ∀ e ∈ block.codes db transacted, (newBytecodes e.1).isSome = true then
          (Vm.finish block.hashes.location block.env
            (block.chain.getRewardPolicy block.hashes block.recipients) db tx calculateTxL1Cost
              transacted).bind fun finished =>
            match finished with
            | .ok (readSet, writeSet, flags, result) => some (.finished readSet writeSet flags
                ⟨⟨result.gasUsed, outcome⟩,
                  fromRevm block.toCode block.env.isEip161Enabled result.state⟩)
            | .error failure => failure.toStep
        else none

section GoOn
variable {block storage newBytecodes} {v : TxVersion} {mvMemory : MvMemory κ MemoryValue}
  {job job' : Revm κ Bytecode L}

omit [DecidableEq κ] in
lemma resume_eq_running {found : Except VmFailure (Revm κ Bytecode L)} {job : Revm κ Bytecode L}
    (h : (resume found : Option (VmStep _ κ MemoryValue
      (PexeTxExecutionResult L (TxState Code)))) = some (.running job)) : found = .ok job := by
  unfold resume at h
  cases found with
  | ok job' =>
    cases h
    rfl
  | error failure => cases failure <;> cases h

omit [DecidableEq κ] in
lemma resume_eq_blocking {found : Except VmFailure (Revm κ Bytecode L)} {b : ℕ}
    (h : (resume found : Option (VmStep _ κ MemoryValue
      (PexeTxExecutionResult L (TxState Code)))) = some (.blocking b)) :
    found = .error (.blocking b) := by
  unfold resume at h
  cases found with
  | ok job' => cases h
  | error failure =>
    cases failure <;> cases h
    rfl

omit [DecidableEq κ] in
lemma mapError_eq_blocking {α : Type} {x : Except ReadError α} {f : α → Revm κ Bytecode L} {b : ℕ}
    (h : (x.mapError VmFailure.ofReadError).map f = .error (.blocking b)) :
    x = .error (.blocking b) := by
  cases x with
  | ok a => cases h
  | error e => rw [VmFailure.ofReadError_blocking (Except.error.inj h)]

omit [DecidableEq κ] in
lemma mapError_eq_ok {α : Type} {x : Except ReadError α} {f : α → Revm κ Bytecode L}
    (h : (x.mapError VmFailure.ofReadError).map f = .ok job) : ∃ a, x = .ok a ∧ f a = job := by
  cases x with
  | ok a => exact ⟨a, rfl, Except.ok.inj h⟩
  | error e => cases h

/-- An execution waits for lower transactions only. -/
lemma goOn_blocking (hjob : job.Belongs v) {b : ℕ}
    (h : block.goOn storage newBytecodes v mvMemory job = some (.blocking b)) : b < v.txIdx := by
  match job with
  | .opening | .codeHashed _ => cases h
  | .senderSought codeHash sender =>
    obtain ⟨tx, -, h⟩ := Option.bind_eq_some_iff.mp h
    exact VmDb.newAcross_waits _ _ _ (mapError_eq_blocking (resume_eq_blocking h)) b rfl
  | .running (.ask question next) db => cases h
  | .walked question next db walk => cases h
  | .hashed question next db walk hash =>
    have hidx : db.txIdx = v.txIdx := hjob db rfl
    rw [← hidx]
    exact VmDb.Watched.answer_waits _ (mapError_eq_blocking (resume_eq_blocking h)) b rfl
  | .running (.done transacted outcome calculateTxL1Cost) db =>
    have hidx : db.txIdx = v.txIdx := hjob db rfl
    obtain ⟨tx, -, h⟩ := Option.bind_eq_some_iff.mp h
    split_ifs at h
    obtain ⟨finished, hfinish, h⟩ := Option.bind_eq_some_iff.mp h
    rw [← hidx]
    apply Vm.finish_blocking (hfinish.trans _)
    match finished with
    | .ok (readSet, writeSet, flags, result) => cases h
    | .error failure =>
      cases failure <;> cases h
      rfl

end GoOn

/-- The machine while this code is shared. -/
def revm : Vm (Revm κ Bytecode L) κ MemoryValue (PexeTxExecutionResult L (TxState Code)) where
  start _ := .opening
  next v job mvMemory step :=
    job.Belongs v ∧ block.goOn storage newBytecodes v mvMemory job = some step
  blocking_lt _ _ _ _ h := goOn_blocking h.1 h.2

/-- The machine, whatever code is shared. -/
def anyRevm : Vm (Revm κ Bytecode L) κ MemoryValue (PexeTxExecutionResult L (TxState Code)) where
  start _ := .opening
  next v job mvMemory step :=
    ∃ newBytecodes, (block.revm storage newBytecodes).next v job mvMemory step
  blocking_lt _ _ _ _ h := goOn_blocking h.choose_spec.1 h.choose_spec.2

lemma anyRevm_extends : (block.anyRevm storage).Extends (block.revm storage newBytecodes) :=
  ⟨rfl, fun _ _ _ _ h => ⟨newBytecodes, h⟩⟩

end ParallelEvmBlock

/-- The workers of a block of EVM transactions, with the new code that they share. -/
structure EvmRun (W κ Code Bytecode L : Type) where
  pexe : Pexe W (Revm κ Bytecode L) κ MemoryValue (PexeTxExecutionResult L (TxState Code))
  newBytecodes : B256 → Option Bytecode

namespace EvmRun
variable {W κ Code Bytecode L : Type} [DecidableEq W] [DecidableEq κ]

/-- A call of a worker, or `new_bytecodes.entry(code_hash).or_insert_with` where there is no
entry. -/
inductive Step (block : ParallelEvmBlock κ Code Bytecode L) (storage : FullStorage Code)
    (σ : EvmRun W κ Code Bytecode L) : EvmRun W κ Code Bytecode L → Prop
  | call {pexe : Pexe W (Revm κ Bytecode L) κ MemoryValue
      (PexeTxExecutionResult L (TxState Code))} :
      Pexe.Step (block.revm storage σ.newBytecodes) σ.pexe pexe →
      Step block storage σ { σ with pexe }
  | deploy {w : W} {v : TxVersion} {transacted : Except EvmError (ResultAndState Bytecode)}
      {outcome : L} {calculateTxL1Cost : Option (List U8 → U256)} {db : VmDb κ}
      {codeHash : B256} {code : Bytecode} :
      σ.pexe.phase w = .executing v (.running (.done transacted outcome calculateTxL1Cost) db) →
      (codeHash, some code) ∈ block.codes db transacted → σ.newBytecodes codeHash = none →
      Step block storage σ
        { σ with newBytecodes := Function.update σ.newBytecodes codeHash (some code) }

/-- A run of the workers over a storage that does not fail: no code is shared yet, and nothing is
recorded but the estimates. -/
def system (W : Type) [DecidableEq W] (block : ParallelEvmBlock κ Code Bytecode L)
    (storage : FullStorage Code) : TransitionSystem (EvmRun W κ Code Bytecode L) where
  init σ := σ.newBytecodes = (fun _ => none) ∧
    (Pexe.system W (block.anyRevm storage) block.txs.length
      (block.chain.estimatedLocations block.hashes block.recipients block.env
        block.txs)).init σ.pexe
  step := Step block storage

section Advance
variable (block : ParallelEvmBlock κ Code Bytecode L) (storage : FullStorage Code)

/-- The first new code that a worker has not shared yet. -/
def unshared (σ : EvmRun W κ Code Bytecode L) (w : W) : Option (B256 × Bytecode) :=
  match σ.pexe.phase w with
  | .executing _ (.running (.done transacted _ _) db) =>
    (block.codes db transacted).findSome? fun e =>
      if σ.newBytecodes e.1 = none then e.2.map (e.1, ·) else none
  | _ => none

/-- The next step of a worker, as a function: it shares new code before it goes on. -/
def advance (σ : EvmRun W κ Code Bytecode L) (w : W) : EvmRun W κ Code Bytecode L :=
  match σ.unshared block w with
  | some (codeHash, code) =>
    { σ with newBytecodes := Function.update σ.newBytecodes codeHash (some code) }
  | none =>
    let next v job mvMemory :=
      if job.Belongs v then block.goOn storage σ.newBytecodes v mvMemory job else none
    { σ with pexe := Pexe.advance (block.revm storage σ.newBytecodes) next σ.pexe w }

variable {block storage}

lemma advance_step (σ : EvmRun W κ Code Bytecode L) (w : W) :
    Relation.ReflGen (Step block storage) σ (advance block storage σ w) := by
  unfold advance
  split <;> rename_i hunshared
  · unfold unshared at hunshared
    split at hunshared
    · rename_i hphase
      obtain ⟨e, he, hcode⟩ := List.exists_of_findSome?_eq_some hunshared
      split_ifs at hcode with hnone
      obtain ⟨code, hsome, heq⟩ := Option.map_eq_some_iff.mp hcode
      cases heq
      refine .single (.deploy hphase ?_ hnone)
      rw [← hsome]
      exact he
    · cases hunshared
  · have hnext : ∀ v job mvMemory step,
        (if job.Belongs v then block.goOn storage σ.newBytecodes v mvMemory job else none) =
          some step → (block.revm storage σ.newBytecodes).next v job mvMemory step := by
      intro v job mvMemory step h
      split_ifs at h with hjob
      exact ⟨hjob, h⟩
    have hcall : ∀ pexe, Relation.ReflGen (Pexe.Step (block.revm storage σ.newBytecodes))
        σ.pexe pexe → Relation.ReflGen (Step block storage) σ { σ with pexe } := by
      intro pexe h
      cases h with
      | refl => exact .refl
      | single hstep => exact .single (.call hstep)
    exact hcall _ (Pexe.advance_step hnext σ.pexe w)

end Advance

variable {block : ParallelEvmBlock κ Code Bytecode L} {storage : FullStorage Code}
  {σ : EvmRun W κ Code Bytecode L}

lemma reachable_pexe (h : (system W block storage).Reachable σ) :
    (Pexe.system W (block.anyRevm storage) block.txs.length
      (block.chain.estimatedLocations block.hashes block.recipients block.env
        block.txs)).Reachable σ.pexe := by
  induction h with
  | init hinit => exact .init hinit.2
  | step _ hstep ih =>
    cases hstep with
    | call hcall => exact .step ih (hcall.extend (block.anyRevm_extends storage _))
    | deploy _ _ _ => exact ih

end EvmRun

end Pevm
