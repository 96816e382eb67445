import Pevm.Vm.Revm

/-!
# Runs are completed runs

What the workers of a block leave behind is a completed run: each transaction has an incarnation
that stands, and its result is what its program comes to on the answers it was given. The block is
followed with all of its new code at hand from the start, which makes no difference to a read that
goes through.
-/
namespace Pevm
open LazyEvaluation Transition

section Program
variable {Code Bytecode L : Type} (storage : FullStorage Code)
  (toBytecode : Code → Option Bytecode) (emptyCode : Bytecode)

/-- What is left of a program after these reads. Code by its hash and block hashes come from the
storage. -/
inductive EvmProgram.Reaches (program : EvmProgram Bytecode L) :
    List (Read × Answer Bytecode) → EvmProgram Bytecode L → Prop
  | start : Reaches program [] program
  | basic {trace : List (Read × Answer Bytecode)} {address : Address}
      {next : Option (AccountInfo Bytecode) → EvmProgram Bytecode L}
      (info : Option (AccountInfo Bytecode)) :
      Reaches program trace (.ask (.basic address) next) →
      Reaches program (trace ++ [(.basic address, .basic info)]) (next info)
  | storage {trace : List (Read × Answer Bytecode)} {address : Address} {index : U256}
      {next : U256 → EvmProgram Bytecode L} (value : U256) :
      Reaches program trace (.ask (.storage address index) next) →
      Reaches program (trace ++ [(.storage address index, .storage value)]) (next value)
  | codeByHash {trace : List (Read × Answer Bytecode)} {codeHash : B256}
      {next : Bytecode → EvmProgram Bytecode L} {code : Bytecode} :
      Reaches program trace (.ask (.codeByHash codeHash) next) →
      (VmDb.Watched.codeByHash toBytecode emptyCode storage codeHash).result = .ok code →
      Reaches program trace (next code)
  | blockHash {trace : List (Read × Answer Bytecode)} {number : U64}
      {next : B256 → EvmProgram Bytecode L} {hash : B256} :
      Reaches program trace (.ask (.blockHash number) next) →
      (VmDb.Watched.blockHash storage number).result = .ok hash →
      Reaches program trace (next hash)

end Program

namespace EvmRun

section Code
variable {κ Code Bytecode L : Type}

/-- The code of an account is there, and code that is added under a hash is the code of that
hash. -/
structure KeepsCode (storage : FullStorage Code) (toBytecode : Code → Option Bytecode)
    (newBytecodes : B256 → Option Bytecode) : Prop where
  stored : ∀ address codeHash, storage.codeHash address = .ok (some codeHash) →
    storage.codeByHash codeHash ≠ .ok none
  same : ∀ codeHash stored code, storage.codeByHash codeHash = .ok (some stored) →
    newBytecodes codeHash = some code → toBytecode stored = some code

/-- There is code under this hash, shared or stored, unless the storage fails. -/
def HasCode (storage : FullStorage Code) (newBytecodes : B256 → Option Bytecode)
    (codeHash : B256) : Prop :=
  newBytecodes codeHash ≠ none ∨ storage.codeByHash codeHash ≠ .ok none

/-- The code hashes in the memory are those of new code that is shared. -/
def CodesShared (newBytecodes : B256 → Option Bytecode) (mem : MvMemory κ MemoryValue) : Prop :=
  ∀ l k inc codeHash, mem.entry l k = some (.data inc (.codeHash codeHash)) →
    newBytecodes codeHash ≠ none

/-- Code that is shared stays what it is. -/
def Grown (newBytecodes newBytecodes' : B256 → Option Bytecode) : Prop :=
  ∀ codeHash code, newBytecodes codeHash = some code → newBytecodes' codeHash = some code

lemma orStorageError_eq_ok {α : Type} {x : Except String α} {a : α}
    (h : VmDb.orStorageError x = .ok a) : x = .ok a := by
  unfold VmDb.orStorageError at h
  cases x with
  | ok a' =>
    cases h
    rfl
  | error message => cases h

variable {storage : FullStorage Code} {newBytecodes newBytecodes' : B256 → Option Bytecode}
  {mem : MvMemory κ MemoryValue}

lemma Grown.ne_none (h : Grown newBytecodes newBytecodes') {codeHash : B256}
    (hcode : newBytecodes codeHash ≠ none) : newBytecodes' codeHash ≠ none := by
  obtain ⟨code, hcode⟩ := Option.ne_none_iff_exists'.mp hcode
  simp [h codeHash code hcode]

lemma HasCode.mono {codeHash : B256} (h : HasCode storage newBytecodes codeHash)
    (hgrown : Grown newBytecodes newBytecodes') : HasCode storage newBytecodes' codeHash :=
  h.imp_left hgrown.ne_none

lemma CodesShared.mono (h : CodesShared newBytecodes mem)
    (hgrown : Grown newBytecodes newBytecodes') : CodesShared newBytecodes' mem :=
  fun l k inc codeHash hentry => hgrown.ne_none (h l k inc codeHash hentry)

variable [DecidableEq κ] {block : ParallelEvmBlock κ Code Bytecode L} {db db' : VmDb κ}
  {address : Address}

/-- A code hash that is read is the hash of some code. -/
lemma CodesShared.getCodeHash (h : CodesShared newBytecodes mem)
    (hstored : ∀ address codeHash, storage.codeHash address = .ok (some codeHash) →
      storage.codeByHash codeHash ≠ .ok none) {codeHash : B256}
    (hread : db.getCodeHash (block.envAt storage.toStorage mem newBytecodes) address =
      .ok (some codeHash, db')) : HasCode storage newBytecodes codeHash := by
  have hfallback : ∀ {x : Except ReadError (VmDb κ)}, (x >>= fun db =>
      VmDb.orStorageError (storage.codeHash address) >>= fun codeHash => .ok (codeHash, db)) =
        .ok (some codeHash, db') → HasCode storage newBytecodes codeHash := by
    intro x hx
    obtain ⟨db₁, -, hx⟩ := Fallible.bind_eq_ok.mp hx
    obtain ⟨found, hfound, hx⟩ := Fallible.bind_eq_ok.mp hx
    cases hx
    right
    apply hstored address
    exact orStorageError_eq_ok hfound
  unfold VmDb.getCodeHash at hread
  dsimp only [ParallelEvmBlock.envAt] at hread
  split at hread
  · cases hread
  · rename_i k inc found hclosest
    obtain ⟨db₁, -, hread⟩ := Fallible.bind_eq_ok.mp hread
    cases hread
    exact .inl (h _ _ _ _ (mem.closestEntry_eq_some.mp hclosest).2.1)
  · exact hfallback hread

omit [DecidableEq κ] in
/-- More code makes no difference to a load that goes through. -/
lemma loadCode_grown (hgrown : Grown newBytecodes newBytecodes')
    (hkeeps : KeepsCode storage block.toBytecode newBytecodes') {codeHash : Option B256}
    (hhas : ∀ found, codeHash = some found → HasCode storage newBytecodes found)
    {mem' : MvMemory κ MemoryValue} {code : Option Bytecode}
    (h : VmDb.loadCode (block.envAt storage.toStorage mem newBytecodes) codeHash = .ok code) :
    VmDb.loadCode (block.envAt storage.toStorage mem' newBytecodes') codeHash = .ok code := by
  cases codeHash with
  | none => exact h
  | some codeHash =>
    unfold VmDb.loadCode at h ⊢
    dsimp only [ParallelEvmBlock.envAt] at h ⊢
    cases hnew : newBytecodes codeHash with
    | some shared =>
      rw [hnew] at h
      rw [hgrown codeHash shared hnew]
      exact h
    | none =>
      rw [hnew] at h
      obtain ⟨stored, hstored, h⟩ := Fallible.bind_eq_ok.mp h
      have hanswer : storage.codeByHash codeHash = .ok stored := orStorageError_eq_ok hstored
      cases stored with
      | none =>
        rcases hhas codeHash rfl with hshared | hstored
        · exact absurd hnew hshared
        · exact absurd hanswer hstored
      | some stored =>
        cases hlater : newBytecodes' codeHash with
        | none =>
          rw [hstored]
          exact h
        | some shared =>
          dsimp only at h ⊢
          rw [hkeeps.same codeHash stored shared hanswer hlater] at h
          exact h

/-- Nor to an answer that revm is given. -/
lemma answer_grown (hgrown : Grown newBytecodes newBytecodes')
    (hkeeps : KeepsCode storage block.toBytecode newBytecodes') {walk hash : MvMemory κ MemoryValue}
    (hhash : CodesShared newBytecodes hash)
    (hhas : ∀ codeHash, db.toCodeHash = some codeHash → HasCode storage newBytecodes codeHash)
    {question : Question} {found : question.Answer Bytecode × VmDb κ}
    (h : (VmDb.Watched.answer db (block.envAt storage.toStorage walk newBytecodes)
      (block.envAt storage.toStorage hash newBytecodes) block.emptyCode storage question).result =
        .ok found) :
    (VmDb.Watched.answer db (block.envAt storage.toStorage walk newBytecodes')
      (block.envAt storage.toStorage hash newBytecodes') block.emptyCode storage question).result =
        .ok found := by
  cases question with
  | codeByHash codeHash => exact h
  | storage address index => exact h
  | blockHash number => exact h
  | basic address =>
    change (VmDb.Watched.basic db _ _ address).result = .ok found at h
    change (VmDb.Watched.basic db _ _ address).result = .ok found
    rw [VmDb.Watched.basic_result] at h ⊢
    unfold VmDb.basicAcross at h ⊢
    dsimp only at h ⊢
    cases hmock : db.mock (block.envAt storage.toStorage walk newBytecodes)
        (db.hashBasic (block.envAt storage.toStorage walk newBytecodes) address) with
    | some info =>
      have hmock' : db.mock (block.envAt storage.toStorage walk newBytecodes')
          (db.hashBasic (block.envAt storage.toStorage walk newBytecodes') address) = some info :=
        hmock
      rw [hmock] at h
      rw [hmock']
      exact h
    | none =>
      have hmock' : db.mock (block.envAt storage.toStorage walk newBytecodes')
          (db.hashBasic (block.envAt storage.toStorage walk newBytecodes') address) =
            (none : Option (Option (AccountInfo Bytecode))) := hmock
      rw [hmock] at h
      rw [hmock']
      obtain ⟨⟨account, updates, newOrigins⟩, hfind, hfinish⟩ := Fallible.bind_eq_ok.mp h
      refine Fallible.bind_eq_ok.mpr ⟨_, hfind, ?_⟩
      cases account with
      | none => exact hfinish
      | some account =>
        obtain ⟨info, db'⟩ := found
        obtain ⟨hnonce, codeHash, code, db₁, hcodeHash, hcode, hinfo, hdb⟩ :=
          VmDb.evaluateAccount_eq_ok.mp hfinish
        refine VmDb.evaluateAccount_eq_ok.mpr
          ⟨hnonce, codeHash, code, db₁, hcodeHash, loadCode_grown hgrown hkeeps ?_ hcode, hinfo,
            hdb⟩
        rintro codeHash rfl
        unfold VmDb.accountCodeHash at hcodeHash
        split_ifs at hcodeHash
        · have hknown := congrArg Prod.fst (Except.ok.inj hcodeHash)
          rw [(VmDb.register_same _ _).1.toCodeHash] at hknown
          exact hhas codeHash hknown
        · exact hhash.getCodeHash hkeeps.stored hcodeHash

end Code

section Executes
variable {κ Code Bytecode L : Type} [DecidableEq κ] (block : ParallelEvmBlock κ Code Bytecode L)
  (storage : FullStorage Code) (newBytecodes newBytecodes' : B256 → Option Bytecode)

/-- A moment of the block as recordings have it, with all of its code at hand. -/
structure At (s : Recordings κ Code Bytecode) (mem : MvMemory κ MemoryValue) : Prop where
  env : s.env = block.envAt storage.toStorage mem newBytecodes'
  codes : CodesShared newBytecodes mem

/-- An incarnation has got as far as this program, by these reads. -/
structure Executes (s : Recordings κ Code Bytecode) (v : TxVersion) (tx : OptimismTxEnv)
    (reads : List (Read × Answer Bytecode)) (program : EvmProgram Bytecode L) (db : VmDb κ) :
    Prop where
  txAt : block.txs[v.txIdx]? = some tx
  incarnation : VmDb.Incarnation v.txIdx tx.toTxEnv s db (db.opening ++ reads)
  reaches : (block.program v.txIdx).Reaches storage block.toBytecode block.emptyCode reads program
  code : ∀ codeHash, db.toCodeHash = some codeHash → HasCode storage newBytecodes codeHash

/-- What is known of a machine at a moment: the incarnation that it is, and the moments that it has
looked at. -/
def Tracked (s : Recordings κ Code Bytecode) (v : TxVersion) : Revm κ Bytecode L → Prop
  | .opening => True
  | .codeHashed codeHash => ∃ s₀, (Recordings.system κ Code Bytecode).Reachable s₀ ∧ s₀.Steps s ∧
      At block storage newBytecodes newBytecodes' s₀ codeHash
  | .senderSought codeHash sender => ∃ s₀ s₁, (Recordings.system κ Code Bytecode).Reachable s₀ ∧
      s₀.Steps s₁ ∧ s₁.Steps s ∧ At block storage newBytecodes newBytecodes' s₀ codeHash ∧
      At block storage newBytecodes newBytecodes' s₁ sender
  | .running program db => ∃ tx reads, Executes block storage newBytecodes s v tx reads program db
  | .walked question next db walk => ∃ s₀ tx reads, s₀.Steps s ∧
      At block storage newBytecodes newBytecodes' s₀ walk ∧
      Executes block storage newBytecodes s₀ v tx reads (.ask question next) db
  | .hashed question next db walk hash => ∃ s₀ s₁ tx reads, s₀.Steps s₁ ∧ s₁.Steps s ∧
      At block storage newBytecodes newBytecodes' s₀ walk ∧
      At block storage newBytecodes newBytecodes' s₁ hash ∧
      Executes block storage newBytecodes s₀ v tx reads (.ask question next) db

/-- Where a recorded execution comes from: an incarnation that was finished at an earlier moment. -/
structure Witnessed (s : Recordings κ Code Bytecode) (v : TxVersion)
    (e : Execution (Revm κ Bytecode L) κ MemoryValue (PexeTxExecutionResult L (TxState Code)))
    (s₀ : Recordings κ Code Bytecode) (tx : OptimismTxEnv) (reads : List (Read × Answer Bytecode))
    (result : ResultAndState Bytecode) (outcome : L)
    (calculateTxL1Cost : Option (List U8 → U256)) (db : VmDb κ) : Prop where
  later : s₀.Steps s
  executes : Executes block storage newBytecodes s₀ v tx reads
    (.done (.ok result) outcome calculateTxL1Cost) db
  finish : Vm.finish block.hashes.location block.env
    (block.chain.getRewardPolicy block.hashes block.recipients) db tx calculateTxL1Cost
      (.ok result) = some (.ok (e.readSet, e.writeSet, e.flags, result))
  result : e.result = ⟨⟨result.gasUsed, outcome⟩,
    fromRevm block.toCode block.env.isEip161Enabled result.state⟩

variable {block storage newBytecodes newBytecodes'} {s s' : Recordings κ Code Bytecode}
  {v : TxVersion} {tx : OptimismTxEnv} {reads : List (Read × Answer Bytecode)}
  {program : EvmProgram Bytecode L} {db : VmDb κ} {job job' : Revm κ Bytecode L}
  {mem : MvMemory κ MemoryValue}

lemma Executes.mono (h : Executes block storage newBytecodes s v tx reads program db)
    {added : B256 → Option Bytecode} (hgrown : Grown newBytecodes added) :
    Executes block storage added s v tx reads program db :=
  ⟨h.txAt, h.incarnation, h.reaches, fun codeHash hcode => (h.code codeHash hcode).mono hgrown⟩

omit [DecidableEq κ] in
lemma At.mono (h : At block storage newBytecodes newBytecodes' s mem)
    {added : B256 → Option Bytecode} (hgrown : Grown newBytecodes added) :
    At block storage added newBytecodes' s mem :=
  ⟨h.env, h.codes.mono hgrown⟩

lemma Executes.later (h : Executes block storage newBytecodes s v tx reads program db)
    (hsteps : s.Steps s') : Executes block storage newBytecodes s' v tx reads program db := by
  refine ⟨h.txAt, ?_, h.reaches, h.code⟩
  induction hsteps with
  | refl => exact h.incarnation
  | tail _ hstep ih => exact .step ih hstep

lemma Tracked.mono (h : Tracked block storage newBytecodes newBytecodes' s v job)
    {added : B256 → Option Bytecode} (hgrown : Grown newBytecodes added) :
    Tracked block storage added newBytecodes' s v job := by
  cases job with
  | opening => trivial
  | codeHashed codeHash =>
    obtain ⟨s₀, hreach, hsteps, hhash⟩ := h
    exact ⟨s₀, hreach, hsteps, hhash.mono hgrown⟩
  | senderSought codeHash sender =>
    obtain ⟨s₀, s₁, hreach, hsteps, hsteps', hhash, hsender⟩ := h
    exact ⟨s₀, s₁, hreach, hsteps, hsteps', hhash.mono hgrown, hsender.mono hgrown⟩
  | running program db =>
    obtain ⟨tx, reads, hexecutes⟩ := h
    exact ⟨tx, reads, hexecutes.mono hgrown⟩
  | walked question next db walk =>
    obtain ⟨s₀, tx, reads, hsteps, hwalk, hexecutes⟩ := h
    exact ⟨s₀, tx, reads, hsteps, hwalk.mono hgrown, hexecutes.mono hgrown⟩
  | hashed question next db walk hash =>
    obtain ⟨s₀, s₁, tx, reads, hsteps, hsteps', hwalk, hhash, hexecutes⟩ := h
    exact ⟨s₀, s₁, tx, reads, hsteps, hsteps', hwalk.mono hgrown, hhash.mono hgrown,
      hexecutes.mono hgrown⟩

lemma Tracked.later (h : Tracked block storage newBytecodes newBytecodes' s v job)
    (hsteps : s.Steps s') : Tracked block storage newBytecodes newBytecodes' s' v job := by
  cases job with
  | opening => trivial
  | codeHashed codeHash =>
    obtain ⟨s₀, hreach, hsteps₀, hhash⟩ := h
    exact ⟨s₀, hreach, hsteps₀.trans hsteps, hhash⟩
  | senderSought codeHash sender =>
    obtain ⟨s₀, s₁, hreach, hsteps₀, hsteps₁, hhash, hsender⟩ := h
    exact ⟨s₀, s₁, hreach, hsteps₀, hsteps₁.trans hsteps, hhash, hsender⟩
  | running program db =>
    obtain ⟨tx, reads, hexecutes⟩ := h
    exact ⟨tx, reads, hexecutes.later hsteps⟩
  | walked question next db walk =>
    obtain ⟨s₀, tx, reads, hsteps₀, hwalk, hexecutes⟩ := h
    exact ⟨s₀, tx, reads, hsteps₀.trans hsteps, hwalk, hexecutes⟩
  | hashed question next db walk hash =>
    obtain ⟨s₀, s₁, tx, reads, hsteps₀, hsteps₁, hwalk, hhash, hexecutes⟩ := h
    exact ⟨s₀, s₁, tx, reads, hsteps₀, hsteps₁.trans hsteps, hwalk, hhash, hexecutes⟩

/-- `VmDb::new` with all code at hand. -/
lemma executes_new {s₀ s₁ : Recordings κ Code Bytecode} {codeHash sender : MvMemory κ MemoryValue}
    (hreach : (Recordings.system κ Code Bytecode).Reachable s₀) (hsteps₀ : s₀.Steps s₁)
    (hsteps₁ : s₁.Steps s) (hhash : At block storage newBytecodes newBytecodes' s₀ codeHash)
    (hsender : At block storage newBytecodes newBytecodes' s₁ sender)
    (hat : At block storage newBytecodes newBytecodes' s mem)
    (hkeeps : KeepsCode storage block.toBytecode newBytecodes')
    (htx : block.txs[v.txIdx]? = some tx)
    (hnew : VmDb.newAcross (block.envAt storage.toStorage codeHash newBytecodes)
      (block.envAt storage.toStorage sender newBytecodes)
      (block.envAt storage.toStorage mem newBytecodes) v.txIdx tx.toTxEnv = .ok db) :
    Executes block storage newBytecodes s v tx [] (block.program v.txIdx) db where
  txAt := htx
  incarnation := by
    rw [List.append_nil]
    apply VmDb.Incarnation.new hreach hsteps₀ hsteps₁
    rw [hhash.env, hsender.env, hat.env]
    exact hnew
  reaches := .start
  code := by
    intro found hcode
    unfold VmDb.newAcross at hnew
    dsimp only at hnew
    split at hnew
    · cases hnew
      cases hcode
    · obtain ⟨⟨codeHash', db₁⟩, hread, heq⟩ := Fallible.bind_eq_ok.mp hnew
      cases heq
      dsimp only at hcode
      subst hcode
      exact hhash.codes.getCodeHash hkeeps.stored hread

/-- An answer with all code at hand. -/
lemma executes_answer {s₀ s₁ : Recordings κ Code Bytecode} {walk hash : MvMemory κ MemoryValue}
    {question : Question} {next : question.Answer Bytecode → EvmProgram Bytecode L}
    (hgrown : Grown newBytecodes newBytecodes')
    (hkeeps : KeepsCode storage block.toBytecode newBytecodes')
    (hat : At block storage newBytecodes newBytecodes' s mem)
    (hsteps₀ : s₀.Steps s₁) (hsteps₁ : s₁.Steps s)
    (hwalk : At block storage newBytecodes newBytecodes' s₀ walk)
    (hhash : At block storage newBytecodes newBytecodes' s₁ hash)
    (h : Executes block storage newBytecodes s₀ v tx reads (.ask question next) db)
    {found : question.Answer Bytecode × VmDb κ}
    (hanswer : (VmDb.Watched.answer db (block.envAt storage.toStorage walk newBytecodes)
      (block.envAt storage.toStorage hash newBytecodes) block.emptyCode storage question).result =
        .ok found) :
    ∃ reads, Executes block storage newBytecodes s v tx reads (next found.1) found.2 := by
  have hsame := VmDb.Watched.answer_sameTx hanswer
  have hopening : found.2.opening = (db.opening : List (Read × Answer Bytecode)) := by
    unfold VmDb.opening
    rw [hsame.tx, hsame.toCodeHash]
  have hcode : ∀ codeHash, found.2.toCodeHash = some codeHash →
      HasCode storage newBytecodes codeHash := by
    rw [hsame.toCodeHash]
    exact h.code
  have hall := answer_grown hgrown hkeeps hhash.codes h.code hanswer
  have hwalkEnv : s₀.env = block.envAt storage.toStorage walk newBytecodes' := hwalk.env
  have hhashEnv : (s₁.withBytecodes s.env.newBytecodes).env =
      block.envAt storage.toStorage hash newBytecodes' := by
    rw [hat.env, Recordings.withBytecodes, hhash.env]
    rfl
  have hread : ∀ {r : Read} {answer : Answer Bytecode},
      db.read s₀.env (s₁.withBytecodes s.env.newBytecodes).env r = .ok (answer, found.2) →
      VmDb.Incarnation v.txIdx tx.toTxEnv s found.2 (found.2.opening ++ (reads ++ [(r, answer)])) := by
    intro r answer hr
    rw [hopening, ← List.append_assoc]
    exact .read h.incarnation hsteps₀ hsteps₁ hr
  cases question with
  | basic address =>
    refine ⟨reads ++ [(.basic address, .basic found.1)], h.txAt, hread ?_, .basic _ h.reaches,
      hcode⟩
    change (VmDb.Watched.basic db _ _ address).result = .ok found at hall
    rw [VmDb.Watched.basic_result] at hall
    rw [hwalkEnv, hhashEnv]
    exact Fallible.bind_eq_ok.mpr ⟨found, hall, rfl⟩
  | storage address index =>
    refine ⟨reads ++ [(.storage address index, .storage found.1)], h.txAt, hread ?_,
      .storage _ h.reaches, hcode⟩
    change (VmDb.Watched.storage db _ address index).result = .ok found at hall
    rw [VmDb.Watched.storage_result] at hall
    rw [hwalkEnv]
    exact Fallible.bind_eq_ok.mpr ⟨found, hall, rfl⟩
  | codeByHash codeHash =>
    obtain ⟨code, hload, heq⟩ := Fallible.bind_eq_ok.mp ((Logged.result_bind _ _).symm.trans hall)
    cases heq
    have hlater := h.later (hsteps₀.trans hsteps₁)
    exact ⟨reads, hlater.txAt, hlater.incarnation, .codeByHash h.reaches hload, hcode⟩
  | blockHash number =>
    obtain ⟨blockHash, hload, heq⟩ :=
      Fallible.bind_eq_ok.mp ((Logged.result_bind _ _).symm.trans hall)
    cases heq
    have hlater := h.later (hsteps₀.trans hsteps₁)
    exact ⟨reads, hlater.txAt, hlater.incarnation, .blockHash h.reaches hload, hcode⟩

/-- A machine that goes on is tracked. -/
theorem Tracked.goOn (hgrown : Grown newBytecodes newBytecodes')
    (hkeeps : KeepsCode storage block.toBytecode newBytecodes')
    (hreach : (Recordings.system κ Code Bytecode).Reachable s)
    (hat : At block storage newBytecodes newBytecodes' s mem)
    (h : Tracked block storage newBytecodes newBytecodes' s v job)
    (hnext : block.goOn storage newBytecodes v mem job = some (.running job')) :
    Tracked block storage newBytecodes newBytecodes' s v job' := by
  match job with
  | .opening =>
    cases hnext
    exact ⟨s, hreach, .refl, hat⟩
  | .codeHashed codeHash =>
    cases hnext
    obtain ⟨s₀, hreach₀, hsteps, hhash⟩ := h
    exact ⟨s₀, s, hreach₀, hsteps, .refl, hhash, hat⟩
  | .senderSought codeHash sender =>
    obtain ⟨s₀, s₁, hreach₀, hsteps₀, hsteps₁, hhash, hsender⟩ := h
    obtain ⟨tx, htx, hnext⟩ := Option.bind_eq_some_iff.mp hnext
    obtain ⟨db, hnew, rfl⟩ :=
      ParallelEvmBlock.mapError_eq_ok (ParallelEvmBlock.resume_eq_running hnext)
    exact ⟨tx, [], executes_new hreach₀ hsteps₀ hsteps₁ hhash hsender hat hkeeps htx hnew⟩
  | .running (.ask question next) db =>
    cases hnext
    obtain ⟨tx, reads, hexecutes⟩ := h
    exact ⟨s, tx, reads, .refl, hat, hexecutes⟩
  | .walked question next db walk =>
    cases hnext
    obtain ⟨s₀, tx, reads, hsteps, hwalk, hexecutes⟩ := h
    exact ⟨s₀, s, tx, reads, hsteps, .refl, hwalk, hat, hexecutes⟩
  | .hashed question next db walk hash =>
    obtain ⟨s₀, s₁, tx, reads, hsteps₀, hsteps₁, hwalk, hhash, hexecutes⟩ := h
    obtain ⟨found, hfound, rfl⟩ :=
      ParallelEvmBlock.mapError_eq_ok (ParallelEvmBlock.resume_eq_running hnext)
    obtain ⟨reads', hexecutes'⟩ :=
      executes_answer hgrown hkeeps hat hsteps₀ hsteps₁ hwalk hhash hexecutes hfound
    exact ⟨tx, reads', hexecutes'⟩
  | .running (.done transacted outcome calculateTxL1Cost) db =>
    obtain ⟨tx, -, hnext⟩ := Option.bind_eq_some_iff.mp hnext
    split_ifs at hnext
    obtain ⟨finished, -, hnext⟩ := Option.bind_eq_some_iff.mp hnext
    cases finished with
    | error failure => cases failure <;> cases hnext
    | ok finished => cases hnext

end Executes

section Finish
variable {κ Code Bytecode L : Type} [DecidableEq κ] {hash : MemoryLocation → κ} {env : ChainEnv}
  {db : VmDb κ} {l : κ} {codeHash : B256}

/-- A code hash is written for code that is shared. -/
lemma mem_newBytecodes_of_writeSet {state : List (Address × RevmAccount Bytecode)}
    (h : (l, .codeHash codeHash) ∈ Vm.writeSet hash env db state) :
    ∃ code, (codeHash, code) ∈ Vm.newBytecodes hash db state := by
  obtain ⟨e, he, h⟩ := List.mem_flatMap.mp h
  unfold Vm.writeAccount at h
  split_ifs at h with hdestroyed htouched
  · simp at h
  · rw [List.mem_append, List.mem_append] at h
    rcases h with (h | h) | h
    · unfold Vm.writeBasic at h
      dsimp only at h
      split_ifs at h <;> simp at h
    · unfold Vm.writeCodeHash at h
      split_ifs at h with hnew
      · obtain ⟨-, rfl⟩ : l = hash (.codeHash e.1) ∧ codeHash = e.2.info.codeHash := by
          simpa using h
        refine ⟨e.2.info.code, List.mem_map.mpr ⟨e, List.mem_filter.mpr ⟨he, ?_⟩, rfl⟩⟩
        simp [hdestroyed, htouched, hnew]
      · simp at h
    · simp [Vm.writeStorage] at h
  · simp [Vm.writeStorage] at h

/-- No reward writes a code hash. -/
lemma mem_of_applyReward {recipient : κ} {amount : U256}
    {writeSet writeSet' : WriteSet κ MemoryValue}
    (h : Vm.applyReward recipient amount writeSet = .ok writeSet')
    (hmem : (l, .codeHash codeHash) ∈ writeSet') : (l, .codeHash codeHash) ∈ writeSet := by
  induction writeSet generalizing writeSet' with
  | nil =>
    cases h
    simp at hmem
  | cons w writeSet ih =>
    obtain ⟨l₀, value⟩ := w
    by_cases heq : l₀ = recipient
    · subst heq
      unfold Vm.applyReward at h
      rw [if_pos rfl] at h
      cases value with
      | basic | lazySender | lazyRecipient =>
        cases h
        simpa using hmem
      | codeHash | storage | selfDestructed => cases h
    · obtain ⟨rest, hrest, rfl⟩ := Vm.applyReward_cons_of_ne heq h
      rcases List.mem_cons.mp hmem with hmem | hmem
      · rw [hmem]
        exact List.mem_cons_self
      · exact List.mem_cons_of_mem _ (ih hrest hmem)

lemma mem_of_applyRewardList {rewards : List (κ × U256)}
    {writeSet writeSet' : WriteSet κ MemoryValue}
    (h : Vm.applyRewardList rewards writeSet = .ok writeSet')
    (hmem : (l, .codeHash codeHash) ∈ writeSet') : (l, .codeHash codeHash) ∈ writeSet := by
  induction rewards generalizing writeSet with
  | nil =>
    cases h
    exact hmem
  | cons reward rewards ih =>
    rw [Vm.applyRewardList, List.foldlM_cons] at h
    obtain ⟨mid, hmid, hrest⟩ := Fallible.bind_eq_ok.mp h
    exact mem_of_applyReward hmid (ih hrest)

variable {block : ParallelEvmBlock κ Code Bytecode L} {storage : FullStorage Code}
  {newBytecodes newBytecodes' : B256 → Option Bytecode} {v : TxVersion}
  {mem : MvMemory κ MemoryValue}
  {readSet : ReadSet κ} {writeSet : WriteSet κ MemoryValue} {flags : FinishExecFlags}

/-- What an execution comes to that is recorded. -/
lemma goOn_finished {job : Revm κ Bytecode L} {r : PexeTxExecutionResult L (TxState Code)}
    (h : block.goOn storage newBytecodes v mem job = some (.finished readSet writeSet flags r)) :
    ∃ result outcome calculateTxL1Cost db tx,
      job = .running (.done (.ok result) outcome calculateTxL1Cost) db ∧
      block.txs[v.txIdx]? = some tx ∧
      (∀ e ∈ Vm.newBytecodes block.hashes.location db result.state, newBytecodes e.1 ≠ none) ∧
      Vm.finish block.hashes.location block.env
        (block.chain.getRewardPolicy block.hashes block.recipients) db tx calculateTxL1Cost
          (.ok result) = some (.ok (readSet, writeSet, flags, result)) ∧
      r = ⟨⟨result.gasUsed, outcome⟩,
        fromRevm block.toCode block.env.isEip161Enabled result.state⟩ := by
  have hresume : ∀ {found : Except VmFailure (Revm κ Bytecode L)},
      ParallelEvmBlock.resume found ≠ some (VmStep.finished readSet writeSet flags r) := by
    intro found h
    cases found with
    | ok job => cases h
    | error failure => cases failure <;> cases h
  match job with
  | .opening | .codeHashed _ => cases h
  | .senderSought codeHash sender =>
    obtain ⟨tx, -, h⟩ := Option.bind_eq_some_iff.mp h
    exact absurd h hresume
  | .running (.ask question next) db => cases h
  | .walked question next db walk => cases h
  | .hashed question next db walk hash => exact absurd h hresume
  | .running (.done transacted outcome calculateTxL1Cost) db =>
    obtain ⟨tx, htx, h⟩ := Option.bind_eq_some_iff.mp h
    split_ifs at h with hcodes
    obtain ⟨finished, hfinish, h⟩ := Option.bind_eq_some_iff.mp h
    cases finished with
    | error failure => cases failure <;> cases h
    | ok finished =>
      obtain ⟨readSet', writeSet', flags', result⟩ := finished
      cases h
      cases transacted with
      | error error =>
        have hfailed := Option.some.inj hfinish
        cases hfailed
      | ok result' =>
        have hresult : result' = result := by
          obtain ⟨rewards, -, happly⟩ := Option.map_eq_some_iff.mp hfinish
          split at happly
          · cases happly
            rfl
          · cases happly
        subst hresult
        refine ⟨result', outcome, calculateTxL1Cost, db, tx, rfl, htx, fun e he => ?_, hfinish, rfl⟩
        exact Option.isSome_iff_ne_none.mp (hcodes e he)

/-- The code hashes that are recorded are those of shared code. -/
lemma CodesShared.record (h : CodesShared newBytecodes mem) {tx : OptimismTxEnv}
    {calculateTxL1Cost : Option (List U8 → U256)} {result : ResultAndState Bytecode} {db : VmDb κ}
    (hfinish : Vm.finish block.hashes.location block.env
      (block.chain.getRewardPolicy block.hashes block.recipients) db tx calculateTxL1Cost
        (.ok result) = some (.ok (readSet, writeSet, flags, result)))
    (hshared : ∀ e ∈ Vm.newBytecodes block.hashes.location db result.state,
      newBytecodes e.1 ≠ none) :
    CodesShared newBytecodes (mem.record v readSet writeSet).2 := by
  intro l k inc codeHash hentry
  rw [MvMemory.record_entry] at hentry
  have hwritten : ∀ x, MvMemory.written writeSet l = some x → x = .codeHash codeHash →
      newBytecodes codeHash ≠ none := by
    rintro _ hw rfl
    obtain ⟨rewards, -, happly⟩ := Option.map_eq_some_iff.mp hfinish
    split at happly
    · rename_i ws hlist
      cases happly
      obtain ⟨code, hcode⟩ := mem_newBytecodes_of_writeSet
        (mem_of_applyRewardList hlist (MvMemory.mem_of_written hw))
      exact hshared _ hcode
    · cases happly
  split_ifs at hentry with hk hl
  · cases hw : MvMemory.written writeSet l with
    | some x =>
      rw [hw] at hentry
      cases hentry
      exact hwritten _ hw rfl
    | none =>
      rw [hw] at hentry
      cases hentry
  · cases hw : MvMemory.written writeSet l with
    | some x =>
      rw [hw] at hentry
      cases hentry
      exact hwritten _ hw rfl
    | none =>
      rw [hw] at hentry
      exact h _ _ _ _ hentry
  · exact h _ _ _ _ hentry

lemma CodesShared.convert (h : CodesShared newBytecodes mem) (i : ℕ) :
    CodesShared newBytecodes (mem.convertWritesToEstimates i) := by
  intro l k inc codeHash hentry
  rw [MvMemory.convert_entry] at hentry
  split_ifs at hentry
  · cases hentry
  · exact h _ _ _ _ hentry

end Finish

section Follows
variable {W κ Code Bytecode L : Type} [DecidableEq W] [DecidableEq κ]
  (block : ParallelEvmBlock κ Code Bytecode L) (storage : FullStorage Code)
  (newBytecodes' : B256 → Option Bytecode)

/-- The locations that the block is expected to write. -/
def estimatedLocations : List (κ × List ℕ) :=
  block.chain.estimatedLocations block.hashes block.recipients block.env block.txs

/-- What the recordings of a block say of its workers: both have the same memory and log, and every
execution on its way is an incarnation. -/
structure Follows (σ : EvmRun W κ Code Bytecode L) (s : Recordings κ Code Bytecode)
    (log : TxVersion → Option (Execution (Revm κ Bytecode L) κ MemoryValue
      (PexeTxExecutionResult L (TxState Code)))) : Prop where
  reachable : (Recordings.system κ Code Bytecode).Reachable s
  moment : At block storage σ.newBytecodes newBytecodes' s σ.pexe.mvMemory
  chronicle : Pexe.Chronicle (block.anyRevm storage) (.new (estimatedLocations block)) log σ.pexe
  logged : ∀ v, s.log v = (log v).map Execution.writeSet
  jobs : ∀ w v job, σ.pexe.phase w = .executing v job →
    Tracked block storage σ.newBytecodes newBytecodes' s v job
  witnessed : ∀ v e, log v = some e → ∃ s₀ tx reads result outcome calculateTxL1Cost db,
    Witnessed block storage σ.newBytecodes s v e s₀ tx reads result outcome calculateTxL1Cost db

variable {block storage newBytecodes'} {σ : EvmRun W κ Code Bytecode L}
  {s s' : Recordings κ Code Bytecode} {log : TxVersion → Option (Execution (Revm κ Bytecode L) κ
    MemoryValue (PexeTxExecutionResult L (TxState Code)))}

lemma Follows.jobs_call (h : Follows block storage newBytecodes' σ s log)
    (hgrown : Grown σ.newBytecodes newBytecodes')
    (hkeeps : KeepsCode storage block.toBytecode newBytecodes') (hsteps : s.Steps s')
    {pexe : Pexe W (Revm κ Bytecode L) κ MemoryValue (PexeTxExecutionResult L (TxState Code))}
    (hcall : Pexe.Step (block.revm storage σ.newBytecodes) σ.pexe pexe) {w : W} {v : TxVersion}
    {job : Revm κ Bytecode L} (hjob : pexe.phase w = .executing v job) :
    Tracked block storage σ.newBytecodes newBytecodes' s' v job := by
  rcases hcall.advances hjob with hstays | rfl | ⟨job₀, hphase, -, hnext⟩
  · exact (h.jobs w v job hstays).later hsteps
  · trivial
  · exact ((h.jobs w v job₀ hphase).goOn hgrown hkeeps h.reachable h.moment hnext).later hsteps

lemma Witnessed.after {newBytecodes : B256 → Option Bytecode} {v : TxVersion}
    {e : Execution (Revm κ Bytecode L) κ MemoryValue (PexeTxExecutionResult L (TxState Code))}
    (hsteps : s.Steps s')
    (h : ∃ s₀ tx reads result outcome calculateTxL1Cost db, Witnessed block storage newBytecodes
      s v e s₀ tx reads result outcome calculateTxL1Cost db) :
    ∃ s₀ tx reads result outcome calculateTxL1Cost db, Witnessed block storage newBytecodes
      s' v e s₀ tx reads result outcome calculateTxL1Cost db := by
  obtain ⟨s₀, tx, reads, result, outcome, calculateTxL1Cost, db, hw⟩ := h
  exact ⟨s₀, tx, reads, result, outcome, calculateTxL1Cost, db, hw.later.trans hsteps, hw.executes,
    hw.finish, hw.result⟩

/-- The recordings go on with a call. -/
theorem Follows.call (h : Follows block storage newBytecodes' σ s log)
    (hc : Crew.Invariant σ.pexe.crew) (hgrown : Grown σ.newBytecodes newBytecodes')
    (hkeeps : KeepsCode storage block.toBytecode newBytecodes')
    {pexe : Pexe W (Revm κ Bytecode L) κ MemoryValue (PexeTxExecutionResult L (TxState Code))}
    (hcall : Pexe.Step (block.revm storage σ.newBytecodes) σ.pexe pexe) :
    ∃ s' log', Follows block storage newBytecodes' { σ with pexe } s' log' := by
  cases h.chronicle.step hc (block.anyRevm_extends storage _) hcall with
  | silent hmem hchronicle =>
    refine ⟨s, log, h.reachable, ?_, hchronicle, h.logged, ?_, h.witnessed⟩
    · constructor
      · rw [hmem]
        exact h.moment.env
      · rw [hmem]
        exact h.moment.codes
    · intro w v job hjob
      exact h.jobs_call hgrown hkeeps .refl hcall hjob
  | convert i hmem hchronicle =>
    have hstep : s.Step (s.withMemory (s.env.mvMemory.convertWritesToEstimates i)) := .convert i
    refine ⟨_, log, .step h.reachable hstep, ?_, hchronicle, h.logged, ?_, ?_⟩
    · constructor
      · rw [hmem, Recordings.withMemory, h.moment.env]
        rfl
      · rw [hmem]
        exact h.moment.codes.convert i
    · intro w v job hjob
      exact h.jobs_call hgrown hkeeps (.single hstep) hcall hjob
    · intro v e he
      exact Witnessed.after (.single hstep) (h.witnessed v e he)
  | @record w v e hphase hnext hfresh hmem hchronicle =>
    obtain ⟨-, hgoOn⟩ := hnext
    obtain ⟨result, outcome, calculateTxL1Cost, db, tx, hjob, htx, hshared, hfinish, hresult⟩ :=
      goOn_finished hgoOn
    have hunlogged : s.log v = none := by
      rw [h.logged, hfresh]
      rfl
    have hstep : s.Step _ := .record e.readSet e.writeSet hunlogged
    refine ⟨_, Function.update log v (some e), .step h.reachable hstep, ?_, hchronicle, ?_, ?_, ?_⟩
    · constructor
      · rw [hmem, Recordings.withMemory, h.moment.env]
        rfl
      · rw [hmem]
        exact h.moment.codes.record hfinish hshared
    · intro u
      by_cases huv : u = v
      · subst huv
        simp
      · simp [huv, h.logged]
    · intro w' u job hjob
      exact h.jobs_call hgrown hkeeps (.single hstep) hcall hjob
    · intro u e' hu
      by_cases huv : u = v
      · subst huv
        rw [Function.update_self] at hu
        cases hu
        have htracked := h.jobs w u e.job hphase
        rw [hjob] at htracked
        obtain ⟨tx', reads, hexecutes⟩ := htracked
        obtain rfl := Option.some.inj (htx.symm.trans hexecutes.txAt)
        exact ⟨s, tx, reads, result, outcome, calculateTxL1Cost, db, .single hstep, hexecutes,
          hfinish, hresult⟩
      · rw [Function.update_of_ne huv] at hu
        exact Witnessed.after (.single hstep) (h.witnessed u e' hu)

omit [DecidableEq W] in
/-- More code is shared. -/
lemma Follows.mono (h : Follows block storage newBytecodes' σ s log)
    {added : B256 → Option Bytecode} (hgrown : Grown σ.newBytecodes added) :
    Follows block storage newBytecodes' { σ with newBytecodes := added } s log where
  reachable := h.reachable
  moment := h.moment.mono hgrown
  chronicle := h.chronicle
  logged := h.logged
  jobs w v job hjob := (h.jobs w v job hjob).mono hgrown
  witnessed v e he := by
    obtain ⟨s₀, tx, reads, result, outcome, calculateTxL1Cost, db, hw⟩ := h.witnessed v e he
    exact ⟨s₀, tx, reads, result, outcome, calculateTxL1Cost, db, hw.later, hw.executes.mono hgrown,
      hw.finish, hw.result⟩

lemma follows_init (h : (system W block storage).init σ) : ∃ s log,
    Follows block storage newBytecodes' σ s log := by
  obtain ⟨-, hinit⟩ := h
  have hmem : σ.pexe.mvMemory = .new (estimatedLocations block) := hinit.2.1
  refine ⟨⟨block.envAt storage.toStorage (.new (estimatedLocations block)) newBytecodes',
    fun _ => none⟩, fun _ => none, .init ⟨⟨_, rfl⟩, rfl⟩, ?_, Pexe.Chronicle.init hinit,
    fun _ => rfl, ?_, ?_⟩
  · constructor
    · rw [hmem]
    · intro l k inc codeHash hentry
      rw [hmem] at hentry
      cases MvMemory.new_entry hentry
  · intro w v job hjob
    rw [hinit.2.2 w] at hjob
    cases hjob
  · intro v e he
    cases he

lemma grown_update {newBytecodes : B256 → Option Bytecode} {codeHash : B256}
    (h : newBytecodes codeHash = none) (code : Bytecode) :
    Grown newBytecodes (Function.update newBytecodes codeHash (some code)) := by
  intro other found hfound
  have hne : other ≠ codeHash := by
    rintro rfl
    simp [h] at hfound
  rw [Function.update_of_ne hne, hfound]

variable [Nonempty W]

/-- Every run is followed by recordings that have all of the code from the start. -/
theorem follows_of_reachable (h : (system W block storage).Reachable σ)
    (hgrown : Grown σ.newBytecodes newBytecodes')
    (hkeeps : KeepsCode storage block.toBytecode newBytecodes') :
    ∃ s log, Follows block storage newBytecodes' σ s log := by
  induction h with
  | init hinit => exact follows_init hinit
  | step hr hstep ih =>
    cases hstep with
    | call hcall =>
      obtain ⟨s, log, hfollows⟩ := ih hgrown
      exact hfollows.call (Pexe.crew_invariant (reachable_pexe hr)).1 hgrown hkeeps hcall
    | @deploy w v transacted outcome calculateTxL1Cost db codeHash code hphase hcode hnone =>
      have hadded := grown_update hnone code
      obtain ⟨s, log, hfollows⟩ := ih fun found code hc => hgrown _ _ (hadded _ _ hc)
      exact ⟨s, log, hfollows.mono hadded⟩

end Follows

section Gone
variable {W κ Code Bytecode L : Type} [DecidableEq W] [DecidableEq κ] [Nonempty W]
  {block : ParallelEvmBlock κ Code Bytecode L} {storage : FullStorage Code}
  {newBytecodes' : B256 → Option Bytecode} {σ : EvmRun W κ Code Bytecode L}
  {s : Recordings κ Code Bytecode} {log : TxVersion → Option (Execution (Revm κ Bytecode L) κ
    MemoryValue (PexeTxExecutionResult L (TxState Code)))}

/-- The result of a transaction is what its program came to in the incarnation that stands. -/
structure Yields (block : ParallelEvmBlock κ Code Bytecode L) (storage : FullStorage Code)
    (σ : EvmRun W κ Code Bytecode L) {s : Recordings κ Code Bytecode} {j : ℕ} {tx : OptimismTxEnv}
    (standing : Standing block.toEvmBlock s j tx) (reads : List (Read × Answer Bytecode))
    (outcome : L) : Prop where
  trace : standing.trace = standing.db.opening ++ reads
  reaches : (block.program j).Reaches storage block.toBytecode block.emptyCode reads
    (.done (.ok standing.result) outcome standing.calculateTxL1Cost)
  result : σ.pexe.executionResults j = some ⟨⟨standing.result.gasUsed, outcome⟩,
    fromRevm block.toCode block.env.isEip161Enabled standing.result.state⟩

/-- An entry that the block began with is an estimate where a write is expected. -/
lemma expected_of_initial {l : κ} {j : ℕ} {e : MemoryEntry MemoryValue}
    (h : (MvMemory.new (estimatedLocations block)).entry l j = some e) : e = .estimate ∧
      ∃ tx, block.txs[j]? = some tx ∧
        l ∈ block.chain.expected block.hashes block.recipients block.env tx := by
  have hestimate : e = .estimate := MvMemory.new_entry h
  rw [hestimate] at h
  exact ⟨hestimate, (PexeChain.buildMvMemory_entry block.chain block.txs).mp h⟩

/-- When all workers have left, every transaction has an incarnation that stands. -/
lemma Follows.standing (h : Follows block storage newBytecodes' σ s log)
    (hreach : (system W block storage).Reachable σ) (hgone : ∀ w, σ.pexe.phase w = .gone)
    {j : ℕ} (hj : j < block.txs.length) :
    ∃ (standing : Standing block.toEvmBlock s j block.txs[j]) (reads : _) (outcome : L),
      Yields block storage σ standing reads outcome := by
  obtain ⟨hdone, hvalid⟩ := Pexe.valid_of_gone (reachable_pexe hreach) hgone hj
  obtain ⟨r, hr, v, e, rfl, he, rfl, hstands⟩ := h.chronicle.done j hdone
  obtain ⟨s₀, tx, reads, result, outcome, calculateTxL1Cost, db, hw⟩ := h.witnessed v e he
  obtain rfl : tx = block.txs[v.txIdx] := by
    have htx := hw.executes.txAt
    rw [List.getElem?_eq_getElem hj] at htx
    exact (Option.some.inj htx).symm
  have hmem : s.env.mvMemory = σ.pexe.mvMemory := by rw [h.moment.env]; rfl
  have hexecutes := Vm.finish_kind.symm.trans (congrArg _ hw.finish)
  have hreadSet : e.readSet = db.readSet := by
    obtain ⟨_, _, _, hread, -⟩ := Vm.executeUnder_eq_ok _ _ hexecutes
    exact hread
  let standing : Standing block.toEvmBlock s v.txIdx block.txs[v.txIdx] :=
    { txIncarnation := v.txIncarnation
      finished := s₀
      db
      trace := db.opening ++ reads
      calculateTxL1Cost
      result
      writeSet := e.writeSet
      flags := e.flags
      incarnation := hw.executes.incarnation
      later := hw.later
      executes := by
        rw [← hreadSet]
        exact hexecutes
      recorded := by
        rw [hmem, hstands.read, hreadSet]
      valid := by
        rw [hmem]
        exact hvalid
      entries := by
        rw [hmem]
        exact hstands.written
      others := by
        intro l x hx hentry
        rw [hmem] at hentry
        obtain ⟨hestimate, tx, htx, hl⟩ := expected_of_initial (hstands.others l x hx hentry)
        rw [hw.executes.txAt] at htx
        obtain rfl := Option.some.inj htx
        exact ⟨hestimate, hl⟩ }
  exact ⟨standing, reads, outcome, rfl, hw.executes.reaches, hr.trans (congrArg some hw.result)⟩

/-- A run of the workers that has come to its end, on a storage that does not fail them, is a
completed run of the block: of each transaction an incarnation stands, which began with the read of
`VmDb::new` and went on with the reads of its program, and the result in the slot is made of it.
`hkeeps`: code that the storage or another execution shares goes by its hash. -/
theorem completed_of_gone (h : (system W block storage).Reachable σ)
    (hkeeps : KeepsCode storage block.toBytecode σ.newBytecodes)
    (hgone : ∀ w, σ.pexe.phase w = .gone) :
    ∃ run : CompletedRun κ Code Bytecode, run.toEvmBlock = block.toEvmBlock ∧
      run.recordings.env =
        block.envAt storage.toStorage σ.pexe.mvMemory σ.newBytecodes ∧
      ∀ j (hj : j < run.txs.length), ∃ reads outcome,
        (run.standing j hj).trace = (run.standing j hj).db.opening ++ reads ∧
        (block.program j).Reaches storage block.toBytecode block.emptyCode reads
          (.done (.ok (run.standing j hj).result) outcome (run.standing j hj).calculateTxL1Cost) ∧
        σ.pexe.executionResults j = some ⟨⟨(run.standing j hj).result.gasUsed, outcome⟩,
          run.executionResults block.toCode j⟩ := by
  obtain ⟨s, log, hfollows⟩ := follows_of_reachable h (fun _ _ hcode => hcode) hkeeps
  choose standing reads outcome hyields using
    fun j (hj : j < block.txs.length) => hfollows.standing h hgone hj
  let run : CompletedRun κ Code Bytecode :=
    { block.toEvmBlock with
      recordings := s
      hash := by
        rw [hfollows.moment.env]
        rfl
      standing
      above := by
        intro j l hj
        have hwrite := Pexe.lastLocations_write_of_le (reachable_pexe h) hj
        by_contra hsome
        obtain ⟨e, hentry⟩ := Option.ne_none_iff_exists'.mp hsome
        rw [hfollows.moment.env] at hentry
        obtain ⟨-, tx, htx, -⟩ :=
          expected_of_initial (hfollows.chronicle.unlisted j l e (by simp [hwrite]) hentry)
        have hlt := (List.getElem?_eq_some_iff.mp htx).1
        change block.txs.length ≤ j at hj
        omega }
  refine ⟨run, rfl, hfollows.moment.env, fun j hj => ?_⟩
  refine ⟨reads j hj, outcome j hj, (hyields j hj).trace, (hyields j hj).reaches, ?_⟩
  rw [(hyields j hj).result]
  have hstate : run.executionResults block.toCode j =
      fromRevm block.toCode block.env.isEip161Enabled (run.standing j hj).result.state :=
    dif_pos hj
  rw [hstate]

end Gone

section Sample
open ParallelEvmBlock

/-- Account 1 has created account 3. -/
def creation : ResultAndState Unit :=
  ⟨21000, [(1, ⟨⟨979000, 1, keccakEmpty, none⟩, [], true, false, false⟩),
    (3, ⟨⟨0, 1, 9, some ()⟩, [], true, false, true⟩)]⟩

/-- Account 2 has called account 3, which keeps a number in its slot 0. -/
def callOf (called : Option (AccountInfo Unit)) (value : U256) : ResultAndState Unit :=
  match called.bind AccountInfo.code with
  | some () => ⟨23000, [(2, ⟨⟨77, 1, keccakEmpty, none⟩, [], true, false, false⟩),
      (3, ⟨⟨0, 1, 9, some ()⟩, [(0, ⟨value, value + 1⟩)], true, false, false⟩)]⟩
  | none => ⟨21000, [(2, ⟨⟨79, 1, keccakEmpty, none⟩, [], true, false, false⟩)]⟩

def creationProgram : ℕ → EvmProgram Unit Unit
  | 0 => .ask (.basic 1) fun _ => .done (.ok creation) () none
  | _ => .ask (.basic 2) fun _ => .ask (.basic 3) fun called => .ask (.storage 3 0) fun value =>
      .done (.ok (callOf called value)) () none

/-- A block of a creation and a call of the contract. Account 7 is rewarded. Locations are their own
hashes. -/
def creationBlock : ParallelEvmBlock MemoryLocation Unit Unit Unit where
  chain := .ethereum
  hashes := ⟨id, fun address => .codeHash address⟩
  recipients := ⟨8, 9⟩
  env := ⟨true, true, 0, 7⟩
  txs := [⟨⟨1, 21000, 1, .create, 0, some 0, none, [], none⟩, ⟨none, none⟩⟩,
    ⟨⟨2, 23000, 0, .call 3, 0, some 0, none, [], none⟩, ⟨none, none⟩⟩]
  concurrencyLevel := 2
  nonZero := two_ne_zero
  toBytecode := some
  toCode := id
  emptyCode := ()
  program := creationProgram
  sequentialProgram := creationProgram
  printDatabaseError text := "database error: " ++ text

def creationStart : EvmRun Bool MemoryLocation Unit Unit Unit :=
  ⟨⟨.new 2, fun _ => none, .new [(.basic 7, [0, 1])], fun _ => .polling⟩, fun _ => none⟩

/-- Two workers execute the block and leave. The call is executed twice: before the contract is
there, and after. -/
def creationGone : EvmRun Bool MemoryLocation Unit Unit Unit :=
  ([false, true] ++ List.replicate 14 true ++ List.replicate 12 false ++ List.replicate 24 true ++
    [false]).foldl (advance creationBlock healthyStorage) creationStart

lemma creationGone_reachable :
    (system Bool creationBlock healthyStorage).Reachable creationGone := by
  have hstart : (system Bool creationBlock healthyStorage).Reachable creationStart :=
    .init ⟨rfl, rfl, rfl, fun _ => rfl⟩
  exact hstart.foldl advance_step _

lemma creationGone_gone (w : Bool) : creationGone.pexe.phase w = .gone := by
  revert w
  decide +kernel

lemma healthyStorage_keepsCode (newBytecodes : B256 → Option Unit) :
    KeepsCode healthyStorage some newBytecodes where
  stored _ _ h := by cases h
  same _ _ _ h := by cases h

/-- The creation and the second execution of the call are what is returned. -/
theorem completed_of_gone_creation : creationGone.newBytecodes 9 = some () ∧
    ∃ run : CompletedRun MemoryLocation Unit Unit,
      run.toEvmBlock = creationBlock.toEvmBlock ∧
      run.recordings.env = creationBlock.envAt healthyStorage.toStorage creationGone.pexe.mvMemory
        creationGone.newBytecodes ∧
      ∀ j < 2, ∃ receipt, creationGone.pexe.executionResults j =
        some ⟨receipt, run.executionResults id j⟩ := by
  obtain ⟨run, hblock, henv, hresults⟩ := completed_of_gone creationGone_reachable
    (healthyStorage_keepsCode creationGone.newBytecodes) creationGone_gone
  refine ⟨by decide +kernel, run, hblock, henv, fun j hj => ?_⟩
  have htxs : run.txs = creationBlock.txs := congrArg EvmBlock.txs hblock
  have hlength : j < run.txs.length := by
    rw [htxs]
    exact hj
  obtain ⟨reads, outcome, -, -, hresult⟩ := hresults j hlength
  exact ⟨_, hresult⟩

end Sample

end EvmRun

end Pevm
