import Pevm.Vm
import Pevm.VmDb.Performs

/-!
# revm as a program over the database

What revm does for a transaction depends on the answers of the database only. Against a memory
that does not change, every read meets the origins it met before.
-/
namespace Pevm
open VersionMap

/-- The execution of one transaction: its next read and what it does with the answer. Stored
code and block hashes come from the storage, which is the same all along, and are part of the
program. -/
inductive Machine (Bytecode : Type)
  | done (transacted : Transacted Bytecode)
  | basic (address : Address) (next : Option (AccountInfo Bytecode) → Machine Bytecode)
  | storage (address : Address) (index : U256) (next : U256 → Machine Bytecode)

namespace Machine
variable {κ Code Bytecode : Type}

/-- All that the program can come to, whatever it reads, satisfies `P`. -/
inductive Ends (P : Transacted Bytecode → Prop) : Machine Bytecode → Prop
  | done {transacted : Transacted Bytecode} : P transacted → Ends P (.done transacted)
  | basic {address : Address} {next : Option (AccountInfo Bytecode) → Machine Bytecode} :
      (∀ info, Ends P (next info)) → Ends P (.basic address next)
  | storage {address : Address} {index : U256} {next : U256 → Machine Bytecode} :
      (∀ value, Ends P (next value)) → Ends P (.storage address index next)

variable [DecidableEq κ]

/-- The program over the database, on one memory. A failed read ends the execution. -/
def run (env : VmEnv κ Code Bytecode) : Machine Bytecode → VmDb κ → Transacted Bytecode × VmDb κ
  | .done transacted, db => (transacted, db)
  | .basic address next, db =>
    match db.basic env address with
    | .ok (info, db') => (next info).run env db'
    | .error error => (.database error, db)
  | .storage address index next, db =>
    match db.storage env address index with
    | .ok (value, db') => (next value).run env db'
    | .error error => (.database error, db)

/-- The locations that the program asks the database for when it is run from here. -/
def touched (env : VmEnv κ Code Bytecode) : Machine Bytecode → VmDb κ → Set MemoryLocation
  | .done _, _ => ∅
  | .basic address next, db =>
    {.basic address, .codeHash address} ∪
      match db.basic env address with
      | .ok (info, db') => (next info).touched env db'
      | .error _ => ∅
  | .storage address index next, db =>
    {.storage address index} ∪
      match db.storage env address index with
      | .ok (value, db') => (next value).touched env db'
      | .error _ => ∅

end Machine

namespace Vm
variable {κ Code Bytecode : Type} [DecidableEq κ]

/-- `Vm::execute`, before `record`: open the database, run the program, build the write set. -/
def executeTransaction (env : VmEnv κ Code Bytecode) (chain : ChainEnv)
    (machine : Machine Bytecode) (txIdx : ℕ) (tx : TxEnv) :
    Except VmExecutionError (ReadSet κ × WriteSet κ MemoryValue × FinishExecFlags) :=
  match VmDb.new env txIdx tx with
  | .error error => .error (.ofReadError error)
  | .ok db => execute env.hash chain (machine.run env db).2 (machine.run env db).1

/-- The locations of the sender and the recipient, and those that revm asks for. -/
def touched (env : VmEnv κ Code Bytecode) (machine : Machine Bytecode) (txIdx : ℕ) (tx : TxEnv) :
    Set MemoryLocation :=
  {location | ∃ address, (address = tx.caller ∨ tx.toAddress = some address) ∧
      (location = .basic address ∨ location = .codeHash address)} ∪
    match VmDb.new env txIdx tx with
    | .ok db => machine.touched env db
    | .error _ => ∅

end Vm

namespace VmDb
variable {κ Code Bytecode : Type}

section Walk
variable {m : ℕ → Option (MemoryEntry MemoryValue)} {bound : ℕ} {newOrigins : List ReadOrigin}
  {u : LazyUpdates}

lemma walkDown_congr {readOrigins : List ReadOrigin} {m' : ℕ → Option (MemoryEntry MemoryValue)}
    (h : ∀ k < bound, m k = m' k) :
    walkDown readOrigins m bound newOrigins u = walkDown readOrigins m' bound newOrigins u := by
  induction bound generalizing newOrigins u with
  | zero => rfl
  | succ idx ih =>
    have hbelow : ∀ newOrigins u, walkDown readOrigins m idx newOrigins u =
        walkDown readOrigins m' idx newOrigins u := fun _ _ => ih fun k hk => h k (by omega)
    simp only [walkDown, h idx (by omega), hbelow]

lemma walkDown_extends {readOrigins newOrigins' : List ReadOrigin}
    {account : Option AccountBasic} {u' : LazyUpdates}
    (h : walkDown readOrigins m bound newOrigins u = .ok (account, u', newOrigins')) :
    newOrigins <+: newOrigins' := by
  induction bound generalizing newOrigins u with
  | zero =>
    cases h
    exact List.prefix_refl _
  | succ idx ih =>
    cases he : m idx with
    | none =>
      rw [walkDown, he] at h
      exact ih h
    | some e =>
      cases e with
      | estimate =>
        rw [walkDown, he] at h
        cases h
      | data inc x =>
        rw [walkDown_data he] at h
        split_ifs at h
        have hstep : newOrigins <+: newOrigins ++ [.mvMemory ⟨idx, inc⟩] :=
          List.prefix_append _ _
        unfold meet at h
        cases x with
        | basic info =>
          cases h
          exact hstep
        | lazyRecipient addition => exact hstep.trans (ih h)
        | lazySender subtraction => exact hstep.trans (ih h)
        | codeHash | storage | selfDestructed => cases h

/-- A walk goes through again along the origins that it has met. -/
lemma walkDown_again {account : Option AccountBasic} {u' : LazyUpdates}
    {newOrigins' : List ReadOrigin}
    (h : walkDown [] m bound newOrigins u = .ok (account, u', newOrigins')) :
    walkDown (closeOrigins account newOrigins') m bound newOrigins u =
      .ok (account, u', newOrigins') := by
  induction bound generalizing newOrigins u with
  | zero => exact h
  | succ idx ih =>
    cases he : m idx with
    | none =>
      rw [walkDown, he] at h ⊢
      exact ih h
    | some e =>
      cases e with
      | estimate =>
        rw [walkDown, he] at h
        cases h
      | data inc x =>
        rw [walkDown_data he] at h ⊢
        rw [if_neg (by simp)] at h
        have hmet : newOrigins ++ [.mvMemory ⟨idx, inc⟩] <+: closeOrigins account newOrigins' := by
          have hnew : newOrigins ++ [.mvMemory ⟨idx, inc⟩] <+: newOrigins' := by
            unfold meet at h
            cases x with
            | basic info =>
              cases h
              exact List.prefix_refl _
            | lazyRecipient addition => exact walkDown_extends h
            | lazySender subtraction => exact walkDown_extends h
            | codeHash | storage | selfDestructed => cases h
          unfold closeOrigins
          split_ifs
          · exact hnew.trans (List.prefix_append _ _)
          · exact hnew
        obtain ⟨rest, hrest⟩ := hmet
        rw [if_neg (by rw [← hrest]; simp)]
        unfold meet at h ⊢
        cases x with
        | basic info => exact h
        | lazyRecipient addition => exact ih h
        | lazySender subtraction => exact ih h
        | codeHash | storage | selfDestructed => cases h

/-- A first walk fails at an estimate or at a value that is no account's. -/
lemma walkDown_error {e : ReadError} (h : walkDown [] m bound newOrigins u = .error e) :
    e = .invalidMemoryValueType ∨ ∃ k < bound, m k = some .estimate ∧ e = .blocking k := by
  induction bound generalizing newOrigins u with
  | zero => cases h
  | succ idx ih =>
    have hbelow : ∀ newOrigins u, walkDown [] m idx newOrigins u = .error e →
        e = .invalidMemoryValueType ∨ ∃ k < idx + 1, m k = some .estimate ∧ e = .blocking k := by
      intro newOrigins u hwalk
      rcases ih hwalk with htype | ⟨k, hk, hestimate, heq⟩
      · exact .inl htype
      · exact .inr ⟨k, by omega, hestimate, heq⟩
    cases he : m idx with
    | none =>
      rw [walkDown, he] at h
      exact hbelow _ _ h
    | some entry =>
      cases entry with
      | estimate =>
        rw [walkDown, he] at h
        cases h
        exact .inr ⟨idx, by omega, he, rfl⟩
      | data inc x =>
        rw [walkDown_data he, if_neg (by simp)] at h
        unfold meet at h
        cases x with
        | basic info => cases h
        | lazyRecipient addition => exact hbelow _ _ h
        | lazySender subtraction => exact hbelow _ _ h
        | codeHash | storage | selfDestructed =>
          cases h
          exact .inl rfl

end Walk

section Errors

lemma orStorageError_error {α : Type} {x : Except String α} {e : ReadError}
    (h : orStorageError x = .error e) : ∃ message, e = .storageError message := by
  unfold orStorageError at h
  split at h
  · cases h
  · cases h
    exact ⟨_, rfl⟩

/-- An error that does not send the execution back, so it comes out of `try_execute`. -/
def Final : ReadError → Prop
  | .blocking _ | .inconsistentRead => False
  | _ => True

lemma loadCode_final {env : VmEnv κ Code Bytecode} {codeHash : Option B256} {e : ReadError}
    (h : loadCode env codeHash = .error e) : Final e := by
  unfold loadCode at h
  cases codeHash with
  | none => cases h
  | some codeHash =>
    dsimp only at h
    split at h
    · cases h
    · cases hstored : orStorageError (env.storage.codeByHash codeHash) with
      | error e' =>
        rw [hstored] at h
        cases h
        obtain ⟨message, rfl⟩ := orStorageError_error hstored
        trivial
      | ok stored =>
        rw [hstored, Fallible.ok_bind] at h
        split at h
        · cases h
        · split at h
          · cases h
          · cases h
            trivial

end Errors

section Steady
variable (env : VmEnv κ Code Bytecode) (txIdx : ℕ)

/-- The origins that a read of a location meets now, on this memory. -/
def originsNow : MemoryLocation → List ReadOrigin
  | .basic address =>
    match walkDown [] (env.mvMemory.entry (env.hash (.basic address))) txIdx [] .none with
    | .ok (account, _, newOrigins) => closeOrigins account newOrigins
    | .error _ => []
  | .codeHash address =>
    match env.mvMemory.closestEntry (env.hash (.codeHash address)) txIdx with
    | some (idx, .data txIncarnation (.codeHash _)) => [.mvMemory ⟨idx, txIncarnation⟩]
    | _ => [.storage]
  | .storage address index =>
    match env.mvMemory.closestEntry (env.hash (.storage address index)) txIdx with
    | some (idx, .data txIncarnation (.storage _)) => [.mvMemory ⟨idx, txIncarnation⟩]
    | _ => [.storage]

/-- The code hash that the lower transactions leave, or the error that reading it comes to. -/
def codeHashNow (address : Address) : Except ReadError (Option B256) :=
  match env.mvMemory.closestEntry (env.hash (.codeHash address)) txIdx with
  | some (_, .data _ .selfDestructed) => .error .selfDestructedAccount
  | some (_, .data _ (.codeHash codeHash)) => .ok (some codeHash)
  | _ => orStorageError (env.storage.codeHash address)

/-- The account that the lower transactions leave, and the lazy updates on top of it. -/
def foundNow (address : Address) : Except ReadError (Option AccountBasic × LazyUpdates) :=
  walkDown [] (env.mvMemory.entry (env.hash (.basic address))) txIdx [] .none >>= fun met =>
    settle env.storage address met.1 met.2.1 >>= fun account => .ok (account, met.2.1)

/-- No lower transaction is expected to write, so no read has to wait for one. -/
def Settled : Prop := ∀ l, ∀ k < txIdx, env.mvMemory.entry l k ≠ some .estimate

variable {env txIdx} {address : Address}

lemma foundNow_final (hsettled : Settled env txIdx) {e : ReadError}
    (h : foundNow env txIdx address = .error e) : Final e := by
  unfold foundNow at h
  cases hwalk : walkDown [] (env.mvMemory.entry (env.hash (.basic address))) txIdx [] .none with
  | error e' =>
    rw [hwalk] at h
    cases h
    rcases walkDown_error hwalk with rfl | ⟨k, hk, hestimate, -⟩
    · trivial
    · exact absurd hestimate (hsettled _ k hk)
  | ok met =>
    rw [hwalk, Fallible.ok_bind] at h
    unfold settle at h
    split at h
    · cases h
    · split at h
      · cases h
      · cases h
      · cases h
        trivial

lemma codeHashNow_final {e : ReadError} (h : codeHashNow env txIdx address = .error e) :
    Final e := by
  unfold codeHashNow at h
  split at h
  · cases h
    trivial
  · cases h
  · obtain ⟨message, rfl⟩ := orStorageError_error h
    trivial

variable [DecidableEq κ]

/-- The origins that an execution has of these locations are those of the present memory. -/
structure Steady (env : VmEnv κ Code Bytecode) (txIdx : ℕ) (L : Set MemoryLocation)
    (db : VmDb κ) : Prop where
  idx : db.txIdx = txIdx
  hashed : Hashed env db
  origins : ∀ location ∈ L, db.readOrigins (env.hash location) = [] ∨
    db.readOrigins (env.hash location) = originsNow env txIdx location

variable {db db' : VmDb κ} {L : Set MemoryLocation}

lemma Steady.push {location : MemoryLocation} {origin : ReadOrigin}
    (hinj : Set.InjOn env.hash L) (hmem : location ∈ L) (h : Steady env txIdx L db)
    (horigin : originsNow env txIdx location = [origin]) :
    ∃ db', db.push (env.hash location) origin = .ok db' ∧ SameTx db db' ∧ Steady env txIdx L db' := by
  have hlength : (db.readOrigins (env.hash location)).length ≤ 1 := by
    rcases h.origins location hmem with hnil | hnow
    · simp [hnil]
    · simp [hnow, horigin]
  have hpush : ∃ db', db.push (env.hash location) origin = .ok db' := by
    unfold VmDb.push
    rcases h.origins location hmem with hnil | hnow
    · rw [hnil]
      exact ⟨_, rfl⟩
    · rw [hnow, horigin]
      exact ⟨db.withOrigins (env.hash location) [origin], by simp [pushOrigin]⟩
  obtain ⟨db', hpush⟩ := hpush
  obtain ⟨hthere, hothers, -⟩ := push_spec hlength hpush
  have hsame := (push_eq_ok hpush).1
  refine ⟨db', hpush, hsame, ?_, h.hashed.of_sameTx hsame, fun location' hmem' => ?_⟩
  · rw [hsame.txIdx, h.idx]
  · by_cases heq : location' = location
    · subst heq
      exact .inr (hthere.trans horigin.symm)
    · rw [hothers _ fun hhash => heq (hinj hmem' hmem hhash)]
      exact h.origins location' hmem'

/-- The read goes through and the database stays steady, or it fails for good. -/
def EndsWell {α : Type} (env : VmEnv κ Code Bytecode) (txIdx : ℕ) (L : Set MemoryLocation)
    (db : VmDb κ) : Except ReadError (α × VmDb κ) → Prop
  | .ok (_, db') => SameTx db db' ∧ Steady env txIdx L db'
  | .error e => Final e

lemma Steady.getCodeHash (hinj : Set.InjOn env.hash L) (hmem : .codeHash address ∈ L)
    (h : Steady env txIdx L db) : ∃ db', SameTx db db' ∧ Steady env txIdx L db' ∧
      db.getCodeHash env address =
        codeHashNow env txIdx address >>= fun codeHash => .ok (codeHash, db') := by
  have horigins : originsNow env txIdx (.codeHash address) =
      match env.mvMemory.closestEntry (env.hash (.codeHash address)) txIdx with
      | some (idx, .data txIncarnation (.codeHash _)) => [.mvMemory ⟨idx, txIncarnation⟩]
      | _ => [.storage] := rfl
  have hmet : ∀ origin (codeHash : Except ReadError (Option B256)),
      originsNow env txIdx (.codeHash address) = [origin] →
      ∃ db', SameTx db db' ∧ Steady env txIdx L db' ∧
        (db.push (env.hash (.codeHash address)) origin >>= fun db =>
          codeHash >>= fun codeHash => .ok (codeHash, db)) =
          codeHash >>= fun codeHash => .ok (codeHash, db') := by
    intro origin codeHash horigin
    obtain ⟨db', hpush, hsame, hsteady⟩ := h.push hinj hmem horigin
    rw [hpush]
    exact ⟨db', hsame, hsteady, rfl⟩
  unfold VmDb.getCodeHash codeHashNow
  dsimp only
  rw [h.idx]
  cases hclosest : env.mvMemory.closestEntry (env.hash (.codeHash address)) txIdx with
  | none =>
    rw [hclosest] at horigins
    exact hmet _ (orStorageError (env.storage.codeHash address)) horigins
  | some closest =>
    rw [hclosest] at horigins
    obtain ⟨idx, entry⟩ := closest
    cases entry with
    | estimate => exact hmet _ (orStorageError (env.storage.codeHash address)) horigins
    | data inc x =>
      cases x with
      | selfDestructed => exact ⟨db, .refl db, h, rfl⟩
      | codeHash codeHash => exact hmet _ (.ok (some codeHash)) horigins
      | basic | storage | lazyRecipient | lazySender =>
        exact hmet _ (orStorageError (env.storage.codeHash address)) horigins

lemma Steady.storage {index : U256} (hinj : Set.InjOn env.hash L)
    (hmem : .storage address index ∈ L) (h : Steady env txIdx L db)
    (hsettled : Settled env txIdx) :
    EndsWell env txIdx L db (db.storage env address index) := by
  have horigins : originsNow env txIdx (.storage address index) =
      match env.mvMemory.closestEntry (env.hash (.storage address index)) txIdx with
      | some (idx, .data txIncarnation (.storage _)) => [.mvMemory ⟨idx, txIncarnation⟩]
      | _ => [.storage] := rfl
  unfold VmDb.storage
  dsimp only
  rw [closestEntry_zero, h.idx]
  split
  · rename_i idx inc value hclosest
    rw [hclosest] at horigins
    obtain ⟨db', hpush, hsame, hsteady⟩ := h.push hinj hmem horigins
    rw [hpush, Fallible.ok_bind]
    exact ⟨hsame, hsteady⟩
  · rename_i idx hclosest
    have hentry := (MvMemory.closestEntry_eq_some _).mp hclosest
    exact absurd hentry.2.1 (hsettled _ idx hentry.1)
  · trivial
  · rename_i hclosest
    rw [hclosest] at horigins
    obtain ⟨db', hpush, hsame, hsteady⟩ := h.push hinj hmem horigins
    rw [hpush, Fallible.ok_bind]
    cases hanswer : orStorageError (env.storage.storage address index) with
    | ok value => exact ⟨hsame, hsteady⟩
    | error e =>
      obtain ⟨message, rfl⟩ := orStorageError_error hanswer
      trivial

/-- A walk meets what a first walk would meet. -/
lemma Steady.readEntries_eq (hmem : .basic address ∈ L) (h : Steady env txIdx L db) :
    db.readEntries env (env.hash (.basic address)) =
      walkDown [] (env.mvMemory.entry (env.hash (.basic address))) txIdx [] .none := by
  rw [VmDb.readEntries_eq, h.idx]
  have horigins : originsNow env txIdx (.basic address) =
      match walkDown [] (env.mvMemory.entry (env.hash (.basic address))) txIdx [] .none with
      | .ok (account, _, newOrigins) => closeOrigins account newOrigins
      | .error _ => [] := rfl
  rcases h.origins (.basic address) hmem with hnil | hnow
  · rw [hnil]
  · rw [hnow, horigins]
    cases hwalk : walkDown [] (env.mvMemory.entry (env.hash (.basic address))) txIdx [] .none with
    | error e => exact hwalk
    | ok met =>
      obtain ⟨account, u, newOrigins⟩ := met
      exact walkDown_again hwalk

/-- An account found keeps the database steady once its origins are registered. -/
lemma Steady.findAccount (hinj : Set.InjOn env.hash L) (hmem : .basic address ∈ L)
    (h : Steady env txIdx L db) :
    (∃ account u newOrigins, foundNow env txIdx address = .ok (account, u) ∧
      db.findAccount env address (env.hash (.basic address)) = .ok (account, u, newOrigins) ∧
      Steady env txIdx L (db.register (env.hash (.basic address)) newOrigins)) ∨
    ∃ e, foundNow env txIdx address = .error e ∧
      db.findAccount env address (env.hash (.basic address)) = .error e := by
  have horigins : originsNow env txIdx (.basic address) =
      match walkDown [] (env.mvMemory.entry (env.hash (.basic address))) txIdx [] .none with
      | .ok (account, _, newOrigins) => closeOrigins account newOrigins
      | .error _ => [] := rfl
  have hregister : ∀ newOrigins, (db.readOrigins (env.hash (.basic address)) = [] →
      newOrigins = originsNow env txIdx (.basic address)) →
      Steady env txIdx L (db.register (env.hash (.basic address)) newOrigins) := by
    intro newOrigins hnew
    have hsame : SameTx db (db.register (env.hash (.basic address)) newOrigins) :=
      (register_same _ _).1
    refine ⟨by rw [hsame.txIdx, h.idx], h.hashed.of_sameTx hsame, fun location hmem' => ?_⟩
    rw [(register_spec db _ newOrigins).1]
    split_ifs with hhere
    · obtain ⟨heq, hnil⟩ := hhere
      obtain rfl := hinj hmem' hmem heq
      exact .inr (hnew hnil)
    · exact h.origins location hmem'
  unfold VmDb.findAccount foundNow
  rw [h.readEntries_eq hmem]
  cases hwalk : walkDown [] (env.mvMemory.entry (env.hash (.basic address))) txIdx [] .none with
  | error e => exact .inr ⟨e, rfl, rfl⟩
  | ok met =>
    obtain ⟨account, u, newOrigins⟩ := met
    rw [hwalk] at horigins
    cases account with
    | some account =>
      exact .inl ⟨some account, u, newOrigins, rfl, rfl, hregister _ fun _ => horigins.symm⟩
    | none =>
      have hclose : originsNow env txIdx (.basic address) = newOrigins ++ [.storage] := horigins
      have hread : db.readOrigins (env.hash (.basic address)) = [] ∨
          db.readOrigins (env.hash (.basic address)) = newOrigins ++ [.storage] := by
        rw [← hclose]
        exact h.origins (.basic address) hmem
      obtain ⟨newOrigins', hback, hnil⟩ := fallBackOrigins_of_read hread
      simp only [Fallible.ok_bind, fallBack_eq_bind, hback]
      cases settle env.storage address none u with
      | error e => exact .inr ⟨e, rfl, rfl⟩
      | ok account =>
        exact .inl ⟨account, u, newOrigins', rfl, rfl,
          hregister _ fun hn => (hnil hn).trans hclose.symm⟩

lemma Steady.evaluateAccount (hinj : Set.InjOn env.hash L) (hmem : .codeHash address ∈ L)
    (h : Steady env txIdx L db) {l : κ} {account : AccountBasic} {u : LazyUpdates}
    (hnonce : ¬ db.NonceMismatch l { account with nonce := account.nonce + u.nonceAddition }) :
    EndsWell env txIdx L db (db.evaluateAccount env address l account u) := by
  unfold VmDb.evaluateAccount
  dsimp only
  rw [if_neg hnonce, readCode_eq_bind]
  have hcodeHash : EndsWell env txIdx L db (db.accountCodeHash env address l) := by
    unfold accountCodeHash
    split_ifs
    · exact ⟨.refl db, h⟩
    · obtain ⟨db', hsame, hsteady, hhash⟩ := h.getCodeHash hinj hmem
      rw [hhash]
      cases hnow : codeHashNow env txIdx address with
      | error e => exact codeHashNow_final hnow
      | ok codeHash => exact ⟨hsame, hsteady⟩
  cases hhash : db.accountCodeHash env address l with
  | error e =>
    rw [hhash] at hcodeHash
    exact hcodeHash
  | ok hashed =>
    obtain ⟨codeHash, db₁⟩ := hashed
    rw [hhash] at hcodeHash
    obtain ⟨hsame, hsteady⟩ := hcodeHash
    rw [Fallible.ok_bind]
    dsimp only
    cases hcode : loadCode env codeHash with
    | error e => exact loadCode_final hcode
    | ok code =>
      exact ⟨hsame.trans ⟨rfl, rfl, rfl, rfl, rfl, rfl⟩, hsteady.idx,
        ⟨hsteady.hashed.fromHash, hsteady.hashed.toHash⟩, hsteady.origins⟩

/-- A lazy transaction checks no nonce. -/
lemma not_nonceMismatch_of_mock {l : κ} (account : AccountBasic) (hlazy : db.isLazy = true)
    (hmock : db.mock env l = none) : ¬ db.NonceMismatch l account := by
  rintro ⟨hfrom, -⟩
  rw [mock, if_pos ⟨hlazy, hfrom⟩] at hmock
  cases hmock

lemma Steady.basic (hinj : Set.InjOn env.hash L) (hbasic : .basic address ∈ L)
    (hcodeHash : .codeHash address ∈ L) (h : Steady env txIdx L db)
    (hsettled : Settled env txIdx) (hlazy : db.isLazy = true) :
    EndsWell env txIdx L db (db.basic env address) := by
  rw [← basicAcross_self]
  unfold basicAcross
  dsimp only
  rw [h.hashed.hashBasic_eq]
  cases hmock : db.mock env (env.hash (.basic address)) with
  | some info => exact ⟨.refl db, h⟩
  | none =>
    rcases h.findAccount hinj hbasic with
      ⟨account, u, newOrigins, -, hfind, hfound⟩ | ⟨e, hnow, hfind⟩
    · rw [hfind, Fallible.ok_bind]
      have hsame : SameTx db (db.register (env.hash (.basic address)) newOrigins) :=
        (register_same _ _).1
      cases account with
      | none => exact ⟨hsame, hfound⟩
      | some account =>
        have hnonce : ¬ (db.register (env.hash (.basic address)) newOrigins).NonceMismatch
            (env.hash (.basic address))
            { account with nonce := account.nonce + u.nonceAddition } := by
          have hbefore := not_nonceMismatch_of_mock
            { account with nonce := account.nonce + u.nonceAddition } hlazy hmock
          unfold NonceMismatch at hbefore ⊢
          rwa [register_fromHash, register_tx]
        have hend := hfound.evaluateAccount hinj hcodeHash hnonce
        dsimp only [finishRead]
        cases hinfo : (db.register (env.hash (.basic address)) newOrigins).evaluateAccount env
            address (env.hash (.basic address)) account u with
        | error e =>
          rw [hinfo] at hend
          exact hend
        | ok answered =>
          rw [hinfo] at hend
          exact ⟨hsame.trans hend.1, hend.2⟩
    · rw [hfind]
      exact foundNow_final hsettled hnow

end Steady

section New
variable [DecidableEq κ] (env : VmEnv κ Code Bytecode) (txIdx : ℕ) (tx : TxEnv)

/-- An execution that has read nothing. -/
def start : VmDb κ where
  txIdx
  tx
  fromHash := env.hash (.basic tx.caller)
  toHash := tx.toAddress.map fun address => env.hash (.basic address)
  toCodeHash := none
  isLazy := false
  readSet := ∅
  readAccounts := ∅

/-- The sender or the recipient of a call has an entry in the memory, from any transaction. -/
def written (address : Address) : Bool :=
  (env.mvMemory.data (env.hash (.basic tx.caller))).isSome ||
    (env.mvMemory.data (env.hash (.basic address))).isSome

variable {env txIdx tx} {L : Set MemoryLocation}

lemma new_create (h : tx.transactTo = .create) :
    VmDb.new env txIdx tx = .ok (start env txIdx tx) := by
  unfold VmDb.new
  rw [h]
  rfl

end New

section Run
variable [DecidableEq κ] {env : VmEnv κ Code Bytecode} {txIdx : ℕ} {db : VmDb κ}
  {L : Set MemoryLocation}

/-- Run lazily where no lower transaction will write, the program comes to one of its own ends
or fails for good. -/
theorem Steady.run {P : Transacted Bytecode → Prop} {machine : Machine Bytecode}
    (hinj : Set.InjOn env.hash L) (hsettled : Settled env txIdx) (h : Steady env txIdx L db)
    (hlazy : db.isLazy = true) (hwithin : machine.touched env db ⊆ L) (hends : machine.Ends P) :
    P (machine.run env db).1 ∨ ∃ e, (machine.run env db).1 = .database e ∧ Final e := by
  induction hends generalizing db with
  | done hdone => exact .inl hdone
  | @basic address next _ ih =>
    rw [Machine.touched, Set.union_subset_iff, Set.insert_subset_iff,
      Set.singleton_subset_iff] at hwithin
    obtain ⟨⟨hbasic, hcodeHash⟩, hrest⟩ := hwithin
    have hend := h.basic hinj hbasic hcodeHash hsettled hlazy
    rw [Machine.run]
    cases hread : db.basic env address with
    | error e =>
      rw [hread] at hend
      exact .inr ⟨e, rfl, hend⟩
    | ok answered =>
      obtain ⟨info, db'⟩ := answered
      rw [hread] at hend hrest
      exact ih info hend.2 (hend.1.isLazy.trans hlazy) hrest
  | @storage address index next _ ih =>
    rw [Machine.touched, Set.union_subset_iff, Set.singleton_subset_iff] at hwithin
    obtain ⟨hmem, hrest⟩ := hwithin
    have hend := h.storage hinj hmem hsettled
    rw [Machine.run]
    cases hread : db.storage env address index with
    | error e =>
      rw [hread] at hend
      exact .inr ⟨e, rfl, hend⟩
    | ok answered =>
      obtain ⟨value, db'⟩ := answered
      rw [hread] at hend hrest
      exact ih value hend.2 (hend.1.isLazy.trans hlazy) hrest

end Run

end VmDb

end Pevm
