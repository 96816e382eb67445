import Pevm.Scheduler
import Pevm.Vm.Machine

/-!
# Retrying a transaction

The loop of `try_execute`. A transaction whose sender fails the checks waits for the
transaction before it; when that one is validated there is nothing to wait for, and the loop
goes on at once.
-/
namespace Pevm

/-- Why `try_execute` makes the workers leave. -/
inductive AbortReason
  | fallbackToSequential
  | executionError
  deriving DecidableEq, Repr

/-- What the worker shares with the others, as one round of the loop meets it. The others may act
between rounds. -/
structure Moment (κ Code Bytecode : Type) where
  env : VmEnv κ Code Bytecode
  scheduler : Scheduler
  abortReason : Option AbortReason

/-- What `try_execute` comes back with, and what it leaves to the others. -/
structure Returned (κ : Type) where
  task : Option Task
  scheduler : Scheduler
  abortReason : Option AbortReason
  mvMemory : MvMemory κ MemoryValue

namespace Moment
variable {κ Code Bytecode : Type}

/-- Nothing is left to do here: the worker comes back without a task. -/
def giveUp (m : Moment κ Code Bytecode) : Returned κ :=
  ⟨none, m.scheduler, m.abortReason, m.env.mvMemory⟩

/-- The block is aborted. The first reason to abort stays. -/
def abort (m : Moment κ Code Bytecode) (reason : AbortReason) : Returned κ :=
  { m.giveUp with
    scheduler := m.scheduler.abort, abortReason := m.abortReason.or (some reason) }

variable [DecidableEq κ] (chain : ChainEnv) (machine : Machine Bytecode) (v : TxVersion)
  (tx : TxEnv)

/-- One round of `try_execute`: what it returns with, unless it goes on. -/
def round (m : Moment κ Code Bytecode) : Option (Returned κ) :=
  match Vm.executeTransaction m.env chain machine v.txIdx tx with
  | .error .retry => if m.abortReason = none then none else some m.giveUp
  | .error .fallbackToSequential => some (m.abort .fallbackToSequential)
  | .error (.blocking blockingTxIdx) =>
    let (added, scheduler) := m.scheduler.addDependency v.txIdx blockingTxIdx
    if added = false ∧ m.abortReason = none then none
    else some { m.giveUp with scheduler }
  | .error .executionError => some (m.abort .executionError)
  | .ok (readSet, writeSet, flags) =>
    let (wroteNewLocation, mvMemory) := m.env.mvMemory.record v readSet writeSet
    let flags := if wroteNewLocation then flags.union .wroteNewLocation else flags
    let (task, scheduler) := m.scheduler.finishExecution v flags
    some { m.giveUp with task, scheduler, mvMemory }

/-- The loop of `try_execute`, from the `n`-th round on. The first argument bounds the rounds, so a
loop that never ends gives none at every bound. -/
def tryExecute (moments : ℕ → Moment κ Code Bytecode) :
    ℕ → ℕ → Option (Returned κ)
  | 0, _ => none
  | fuel + 1, n =>
    match (moments n).round chain machine v tx with
    | some returned => some returned
    | none => tryExecute moments fuel (n + 1)

variable {chain machine v tx}

end Moment

section Sender
variable {κ Code Bytecode : Type}

/-- The nonce is not the transaction's, or the balance does not cover what it may cost. -/
def FailsCheck (tx : TxEnv) (cost : U256) (sender : AccountBasic) : Prop :=
  (∃ nonce, tx.nonce = some nonce ∧ nonce ≠ sender.nonce) ∨ sender.balance < cost

/-- The transaction is rejected on what the lower transactions leave: its sender has another nonce
or too little, and may send. -/
structure Rejected (env : VmEnv κ Code Bytecode) (txIdx : ℕ) (tx : TxEnv) (cost : U256)
    (maySend : Option Bytecode → Prop) : Prop where
  fails : ∃ account u, VmDb.foundNow env txIdx tx.caller = .ok (account, u) ∧
    FailsCheck tx cost ((account.map fun account => VmDb.accountWith account u).getD .default)
  code : ∃ codeHash code, VmDb.codeHashNow env txIdx tx.caller = .ok codeHash ∧
    VmDb.loadCode env codeHash = .ok code ∧ maySend code

end Sender

namespace Vm
variable {κ Code Bytecode : Type} [DecidableEq κ] {env : VmEnv κ Code Bytecode} {txIdx : ℕ}
  {tx : TxEnv} {cost : U256} {maySend : Option Bytecode → Prop} {chain : ChainEnv}
  {next : Option (AccountInfo Bytecode) → Machine Bytecode}
open VmDb

section Within
variable {L : Set MemoryLocation}

end Within

end Vm

namespace Moment
variable {κ Code Bytecode : Type}
open VmDb VersionMap

/-- A later moment at which the lower transactions are what they were. -/
structure SameBelow (env env' : VmEnv κ Code Bytecode) (txIdx : ℕ) : Prop where
  block : SameBlock env env'
  entries : ∀ l, ∀ k < txIdx, env'.mvMemory.entry l k = env.mvMemory.entry l k

section SameBelow
variable {env env' : VmEnv κ Code Bytecode} {txIdx : ℕ} {tx : TxEnv} {cost : U256}
  {maySend : Option Bytecode → Prop}

lemma SameBelow.settled (h : SameBelow env env' txIdx) (hsettled : Settled env txIdx) :
    Settled env' txIdx := by
  intro l k hk
  rw [h.entries l k hk]
  exact hsettled l k hk

lemma SameBelow.rejected (h : SameBelow env env' txIdx)
    (hrejected : Rejected env txIdx tx cost maySend) : Rejected env' txIdx tx cost maySend := by
  have hfound : foundNow env' txIdx tx.caller = foundNow env txIdx tx.caller := by
    unfold foundNow
    rw [h.block.hash, h.block.storage, walkDown_congr (h.entries _)]
  have hcodeHash : codeHashNow env' txIdx tx.caller = codeHashNow env txIdx tx.caller := by
    unfold codeHashNow
    rw [h.block.hash, h.block.storage, MvMemory.closestEntry_eq, MvMemory.closestEntry_eq,
      closestBelow_congr (h.entries _)]
  obtain ⟨codeHash, code, hnow, hcode, hmay⟩ := hrejected.code
  constructor
  · rw [hfound]
    exact hrejected.fails
  · rw [hcodeHash]
    exact ⟨codeHash, code, hnow, h.block.code codeHash code hcode, hmay⟩

end SameBelow

section Loop
variable [DecidableEq κ] {chain : ChainEnv} {v : TxVersion} {tx : TxEnv} {cost : U256}
  {maySend : Option Bytecode → Prop} {next : Option (AccountInfo Bytecode) → Machine Bytecode}
  {m : Moment κ Code Bytecode}

end Loop

section Sample

end Sample

end Moment

end Pevm
