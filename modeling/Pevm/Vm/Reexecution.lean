import Pevm.Vm.Runs

/-!
# Results without the other workers

At the end of a run, each transaction comes to its recorded result by itself. Executed once more,
from `VmDb::new` to its end on the memory that is there, it meets the same answers, unless it is a
transfer that was not lazy and finds its own entries now.
-/
namespace Pevm
open LazyEvaluation Transition

section Run
variable {κ Code Bytecode L : Type} [DecidableEq κ]

/-- An execution by itself on one memory, with nobody else at work. The first failed read ends it.
-/
def EvmProgram.run (env : VmEnv κ Code Bytecode) (emptyCode : Bytecode)
    (storage : FullStorage Code) : EvmProgram Bytecode L → VmDb κ →
      Except ReadError ((Except EvmError (ResultAndState Bytecode) × L ×
        Option (List U8 → U256)) × VmDb κ)
  | .done transacted outcome calculateTxL1Cost, db =>
    .ok ((transacted, outcome, calculateTxL1Cost), db)
  | .ask question next, db =>
    (VmDb.Watched.answer db env env emptyCode storage question).result >>= fun found =>
      (next found.1).run env emptyCode storage found.2

variable {env : VmEnv κ Code Bytecode} {emptyCode : Bytecode} {storage : FullStorage Code}
  {db db' : VmDb κ}

/-- The database answers, and the program goes on. -/
lemma EvmProgram.run_answered {question : Question}
    {next : question.Answer Bytecode → EvmProgram Bytecode L}
    {found : question.Answer Bytecode × VmDb κ}
    (h : (VmDb.Watched.answer db env env emptyCode storage question).result = .ok found) :
    (EvmProgram.ask question next).run env emptyCode storage db =
      (next found.1).run env emptyCode storage found.2 := by
  have hask : (EvmProgram.ask question next).run env emptyCode storage db =
      (VmDb.Watched.answer db env env emptyCode storage question).result >>= fun found =>
        (next found.1).run env emptyCode storage found.2 := rfl
  rw [hask, h, Fallible.ok_bind]

lemma VmDb.readAll_append {reads reads' : List Read} {answers answers' : List (Answer Bytecode)}
    (hlength : reads.length = answers.length)
    (h : db.readAll env (reads ++ reads') = .ok (answers ++ answers', db')) :
    ∃ mid, db.readAll env reads = .ok (answers, mid) ∧
      mid.readAll env reads' = .ok (answers', db') := by
  induction reads generalizing db answers with
  | nil =>
    obtain rfl := List.length_eq_zero_iff.mp hlength.symm
    exact ⟨db, rfl, h⟩
  | cons r reads ih =>
    cases answers with
    | nil => simp at hlength
    | cons answer answers =>
      rw [List.cons_append, VmDb.readAll] at h
      obtain ⟨first, hfirst, h⟩ := Fallible.bind_eq_ok.mp h
      obtain ⟨rest, hrest, heq⟩ := Fallible.bind_eq_ok.mp h
      simp only [List.cons_append, Except.ok.injEq, Prod.mk.injEq, List.cons.injEq] at heq
      obtain ⟨⟨rfl, hanswers⟩, rfl⟩ := heq
      obtain ⟨mid, hmid, hlast⟩ := ih (by simpa using hlength)
        (hrest.trans (congrArg Except.ok (Prod.ext hanswers rfl)))
      refine ⟨mid, ?_, hlast⟩
      rw [VmDb.readAll, hfirst, Fallible.ok_bind, hmid]
      rfl

/-- Reads that go through lead the program where it has been. -/
theorem EvmProgram.Reaches.run_eq {program program' : EvmProgram Bytecode L}
    {trace : List (Read × Answer Bytecode)}
    (h : program.Reaches storage env.toBytecode emptyCode trace program')
    (hreads : db.readAll env (trace.map Prod.fst) = .ok (trace.map Prod.snd, db')) :
    program.run env emptyCode storage db = program'.run env emptyCode storage db' := by
  have hlast : ∀ {trace : List (Read × Answer Bytecode)} {r : Read} {answer : Answer Bytecode}
      {db' : VmDb κ}, db.readAll env ((trace ++ [(r, answer)]).map Prod.fst) =
        .ok ((trace ++ [(r, answer)]).map Prod.snd, db') →
      ∃ mid, db.readAll env (trace.map Prod.fst) = .ok (trace.map Prod.snd, mid) ∧
        mid.read env env r = .ok (answer, db') := by
    intro trace r answer db' h
    rw [List.map_append, List.map_append] at h
    obtain ⟨mid, hmid, hone⟩ := VmDb.readAll_append (by simp) h
    obtain ⟨first, hfirst, heq⟩ := Fallible.bind_eq_ok.mp hone
    cases heq
    exact ⟨mid, hmid, hfirst⟩
  induction h generalizing db' with
  | start =>
    cases hreads
    rfl
  | @basic trace address next info _ ih =>
    obtain ⟨mid, hmid, hread⟩ := hlast hreads
    obtain ⟨found, hfound, heq⟩ := Fallible.bind_eq_ok.mp hread
    cases heq
    have hanswer : (VmDb.Watched.answer mid env env emptyCode storage (.basic address)).result =
        .ok found := by
      change (VmDb.Watched.basic mid env env address).result = .ok found
      rw [VmDb.Watched.basic_result]
      exact hfound
    exact (ih hmid).trans (run_answered hanswer)
  | @storage trace address index next value _ ih =>
    obtain ⟨mid, hmid, hread⟩ := hlast hreads
    obtain ⟨found, hfound, heq⟩ := Fallible.bind_eq_ok.mp hread
    cases heq
    have hanswer : (VmDb.Watched.answer mid env env emptyCode storage
        (.storage address index)).result = .ok found := by
      change (VmDb.Watched.storage mid env address index).result = .ok found
      rw [VmDb.Watched.storage_result]
      exact hfound
    exact (ih hmid).trans (run_answered hanswer)
  | @codeByHash trace codeHash next code _ hcode ih =>
    have hanswer : (VmDb.Watched.answer db' env env emptyCode storage
        (.codeByHash codeHash)).result = .ok (code, db') :=
      (Logged.result_bind _ _).trans (by rw [hcode]; rfl)
    exact (ih hreads).trans (run_answered hanswer)
  | @blockHash trace number next hash _ hhash ih =>
    have hanswer : (VmDb.Watched.answer db' env env emptyCode storage
        (.blockHash number)).result = .ok (hash, db') :=
      (Logged.result_bind _ _).trans (by rw [hhash]; rfl)
    exact (ih hreads).trans (run_answered hanswer)

end Run

section Laziness
variable {κ Code Bytecode : Type} [DecidableEq κ] {txIdx : ℕ} {tx : TxEnv}
  {s s' : Recordings κ Code Bytecode} {db db' : VmDb κ} {trace : List (Read × Answer Bytecode)}

/-- What is written stays written, whatever becomes of the entry. -/
lemma Recordings.Step.written (h : s.Step s') {address : Address}
    (hwritten : VmDb.written s.env tx address = true) :
    VmDb.written s'.env tx address = true := by
  simp only [VmDb.written, Bool.or_eq_true] at hwritten ⊢
  cases h with
  | record readSet writeSet _ =>
    exact hwritten.imp (MvMemory.record_isSome _ _ _ _) (MvMemory.record_isSome _ _ _ _)
  | convert i => exact hwritten.imp (MvMemory.convert_isSome _ _) (MvMemory.convert_isSome _ _)
  | deploy => exact hwritten

lemma Recordings.Steps.written (h : s.Steps s') {address : Address}
    (hwritten : VmDb.written s.env tx address = true) :
    VmDb.written s'.env tx address = true := by
  induction h with
  | refl => exact hwritten
  | tail _ hstep ih => exact hstep.written ih

/-- What an incarnation has decided: it is lazy only for a call of an account without code whose
sender or recipient is written. -/
structure VmDb.Decided (env : VmEnv κ Code Bytecode) (tx : TxEnv) (db : VmDb κ) : Prop where
  create : tx.transactTo = .create → db.toCodeHash = none
  isLazy : db.isLazy = true → db.toCodeHash = none ∧
    ∃ address, tx.transactTo = .call address ∧ VmDb.written env tx address = true

lemma VmDb.Decided.later (h : VmDb.Decided s.env tx db) (hsteps : s.Steps s')
    (hsame : VmDb.SameTx db db') : VmDb.Decided s'.env tx db' where
  create hcreate := hsame.toCodeHash.trans (h.create hcreate)
  isLazy hlazy := by
    obtain ⟨hnone, address, hcall, hwritten⟩ := h.isLazy (hsame.isLazy.symm.trans hlazy)
    exact ⟨hsame.toCodeHash.trans hnone, address, hcall, hsteps.written hwritten⟩

lemma VmDb.decided_of_newAcross {s₁ : Recordings κ Code Bytecode}
    (h : VmDb.newAcross s.env s₁.env s'.env txIdx tx = .ok db) (hsteps : s.Steps s₁)
    (hsteps' : s₁.Steps s') : VmDb.Decided s'.env tx db := by
  have hhash := (Recordings.Steps.sameBlock hsteps).hash
  have hhash' := (Recordings.Steps.sameBlock hsteps').hash
  unfold VmDb.newAcross at h
  dsimp only at h
  split at h
  · rename_i hcreate
    cases h
    exact ⟨fun _ => rfl, fun hlazy => by cases hlazy⟩
  · rename_i address hcall
    obtain ⟨⟨codeHash, db₁⟩, -, heq⟩ := Fallible.bind_eq_ok.mp h
    cases heq
    refine ⟨fun hcreate => ?_, fun hlazy => ?_⟩
    · rw [hcall] at hcreate
      cases hcreate
    · obtain ⟨hnone, hfound⟩ := Bool.and_eq_true_iff.mp hlazy
      refine ⟨Option.isNone_iff_eq_none.mp hnone, address, hcall, ?_⟩
      rcases Bool.or_eq_true_iff.mp hfound with hsender | hrecipient
      · apply hsteps'.written
        rw [← hhash] at hsender
        simp [VmDb.written, hsender]
      · rw [← hhash, ← hhash'] at hrecipient
        simp [VmDb.written, hrecipient]

lemma VmDb.read_sameTx {env envCode : VmEnv κ Code Bytecode} {r : Read} {answer : Answer Bytecode}
    (h : db.read env envCode r = .ok (answer, db')) : VmDb.SameTx db db' := by
  cases r with
  | basic address =>
    obtain ⟨⟨info, db₁⟩, hbasic, heq⟩ := Fallible.bind_eq_ok.mp h
    cases heq
    exact (VmDb.basicAcross_eq_ok hbasic).1
  | storage address index =>
    obtain ⟨⟨value, db₁⟩, hstorage, heq⟩ := Fallible.bind_eq_ok.mp h
    cases heq
    exact (VmDb.storage_eq_ok hstorage).1
  | codeHash address =>
    obtain ⟨⟨codeHash, db₁⟩, hhash, heq⟩ := Fallible.bind_eq_ok.mp h
    cases heq
    exact (VmDb.getCodeHash_eq_ok hhash).1

theorem VmDb.Incarnation.decided (h : VmDb.Incarnation txIdx tx s db trace) :
    VmDb.Decided s.env tx db := by
  induction h with
  | new _ hsteps hsteps' hnew => exact VmDb.decided_of_newAcross hnew hsteps hsteps'
  | step _ hstep ih => exact ih.later (.single hstep) (.refl _)
  | read _ hsteps hsteps' hread ih => exact ih.later (hsteps.trans hsteps') (VmDb.read_sameTx hread)

variable {env : VmEnv κ Code Bytecode}

/-- The code hash of the recipient does not depend on what was decided before. -/
lemma VmDb.getCodeHash_decided {address : Address} {found : Option B256 × VmDb κ}
    (toCodeHash : Option B256) (isLazy : Bool) (h : db.getCodeHash env address = .ok found) :
    VmDb.getCodeHash { db with toCodeHash, isLazy } env address =
      .ok (found.1, { found.2 with toCodeHash, isLazy }) := by
  have hpush : ∀ {l : κ} {origin : ReadOrigin} {db' : VmDb κ}, db.push l origin = .ok db' →
      VmDb.push { db with toCodeHash, isLazy } l origin =
        .ok { db' with toCodeHash, isLazy } := by
    intro l origin db' hdb
    have horigin : VmDb.readOrigins { db with toCodeHash, isLazy } l = db.readOrigins l := rfl
    unfold VmDb.push at hdb ⊢
    rw [horigin]
    cases horigins : pushOrigin (db.readOrigins l) origin with
    | none =>
      rw [horigins] at hdb
      cases hdb
    | some origins =>
      rw [horigins] at hdb
      cases hdb
      rfl
  unfold VmDb.getCodeHash at h ⊢
  dsimp only at h ⊢
  split at h
  · cases h
  · obtain ⟨db₁, hdb, heq⟩ := Fallible.bind_eq_ok.mp h
    cases heq
    rw [hpush hdb]
    rfl
  · obtain ⟨db₁, hdb, heq⟩ := Fallible.bind_eq_ok.mp h
    obtain ⟨codeHash, hcode, heq⟩ := Fallible.bind_eq_ok.mp heq
    cases heq
    rw [hpush hdb, Fallible.ok_bind, hcode]
    rfl

/-- The opening reads are those of `VmDb::new`, which decides anew whether the execution is
lazy. -/
lemma VmDb.new_of_readAll (hashed : VmDb.Hashed env db) (hdecided : VmDb.Decided env db.tx db)
    (h : db.restart.readAll env ((db.opening : List (Read × Answer Bytecode)).map Prod.fst) =
      .ok ((db.opening : List (Read × Answer Bytecode)).map Prod.snd, db')) :
    db'.toCodeHash = db.toCodeHash ∧ db'.isLazy = db.isLazy ∧
      ∃ isLazy, VmDb.new env db.txIdx db.tx = .ok { db' with isLazy } ∧
      (db.isLazy = true ∨ db.tx.transactTo = .create ∨ db.toCodeHash ≠ none →
        isLazy = db.isLazy) := by
  have hstart : VmDb.start env db.txIdx db.tx =
      { db.restart with toCodeHash := none, isLazy := false } := by
    rw [VmDb.start, ← hashed.fromHash, ← hashed.toHash]
    rfl
  unfold VmDb.opening at h
  cases hto : db.tx.transactTo with
  | create =>
    simp only [hto] at h
    cases h
    refine ⟨rfl, rfl, false, ?_, fun _ => ?_⟩
    · rw [VmDb.new_create hto, hstart, ← hdecided.create hto]
      rfl
    · cases hlazy : db.isLazy with
      | false => rfl
      | true =>
        obtain ⟨-, address, hcall, -⟩ := hdecided.isLazy hlazy
        rw [hto] at hcall
        cases hcall
  | call address =>
    simp only [hto, List.map_cons, List.map_nil] at h
    obtain ⟨⟨answer, db₁⟩, hfirst, heq⟩ := Fallible.bind_eq_ok.mp h
    obtain ⟨⟨codeHash, db₂⟩, hread, hanswer⟩ := Fallible.bind_eq_ok.mp hfirst
    cases heq
    cases hanswer
    have hsame := (VmDb.getCodeHash_eq_ok hread).1
    have hcodeHash : db₂.toCodeHash = db.toCodeHash := hsame.toCodeHash
    refine ⟨hcodeHash, hsame.isLazy, db.toCodeHash.isNone && VmDb.written env db.tx address, ?_, ?_⟩
    · have hnew : VmDb.new env db.txIdx db.tx =
          (VmDb.start env db.txIdx db.tx).getCodeHash env address >>= fun hashed =>
            .ok { hashed.2 with
              toCodeHash := hashed.1
              isLazy := hashed.1.isNone && VmDb.written env db.tx address } := by
        unfold VmDb.new
        rw [hto]
        rfl
      rw [hnew, hstart, VmDb.getCodeHash_decided none false hread, Fallible.ok_bind]
      refine congrArg Except.ok ?_
      change { db₂ with
        toCodeHash := db.toCodeHash
        isLazy := db.toCodeHash.isNone && VmDb.written env db.tx address } =
          { db₂ with isLazy := db.toCodeHash.isNone && VmDb.written env db.tx address }
      rw [← hcodeHash]
    · rintro (hlazy | hcreate | hcode)
      · obtain ⟨hnone, address', hcall, hwritten⟩ := hdecided.isLazy hlazy
        rw [hto] at hcall
        cases hcall
        rw [hnone, hwritten, hlazy]
        rfl
      · cases hcreate
      · cases hlazy : db.isLazy with
        | true => exact absurd (hdecided.isLazy hlazy).1 hcode
        | false =>
          obtain ⟨codeHash, hsome⟩ := Option.ne_none_iff_exists'.mp hcode
          rw [hsome]
          rfl

end Laziness

namespace EvmRun
variable {W κ Code Bytecode L : Type} [DecidableEq W] [DecidableEq κ] [Nonempty W]
  {block : ParallelEvmBlock κ Code Bytecode L} {storage : FullStorage Code}
  {σ : EvmRun W κ Code Bytecode L}

/-- An execution of a transaction by itself, on the memory at the end of the run, against the
incarnation that stands. -/
structure Reexecutes (block : ParallelEvmBlock κ Code Bytecode L) (storage : FullStorage Code)
    {s : Recordings κ Code Bytecode} {j : ℕ} {tx : OptimismTxEnv}
    (standing : Standing block.toEvmBlock s j tx) (outcome : L) (opened : VmDb κ) : Prop where
  new : VmDb.new s.env j tx.toTxEnv = .ok opened
  toCodeHash : opened.toCodeHash = standing.db.toCodeHash
  /-- Only a call of an account without code that was not lazy may become lazy. -/
  isLazy : standing.db.isLazy = true ∨ tx.toTxEnv.transactTo = .create ∨
    standing.db.toCodeHash ≠ none → opened.isLazy = standing.db.isLazy
  run : opened.isLazy = standing.db.isLazy →
    (block.program j).run s.env block.emptyCode storage opened =
      .ok ((.ok standing.result, outcome, standing.calculateTxL1Cost), standing.db)

/-- At the end of a run, each transaction has an incarnation that stands and whose result is the
one that is returned. `VmDb::new` and the program, executed by themselves on the final memory, come
to the same result with the same reads. `hkeeps`: stored and new code goes by its hash. The new
execution is the old one if no two locations that the incarnation touched share a hash and it is
lazy where the old one was; the latter can fail only for a transfer that was not lazy. -/
theorem reexecutes_of_gone (h : (system W block storage).Reachable σ)
    (hkeeps : KeepsCode storage block.toBytecode σ.newBytecodes)
    (hgone : ∀ w, σ.pexe.phase w = .gone) {j : ℕ} (hj : j < block.txs.length) :
    ∃ (s : Recordings κ Code Bytecode) (standing : Standing block.toEvmBlock s j block.txs[j])
      (reads : List (Read × Answer Bytecode)) (outcome : L),
      s.env = block.envAt storage.toStorage σ.pexe.mvMemory σ.newBytecodes ∧
      Yields block storage σ standing reads outcome ∧
      (Set.InjOn block.hashes.location (VmDb.touched block.txs[j].toTxEnv standing.trace) →
        ∃ opened, Reexecutes block storage standing outcome opened) := by
  obtain ⟨s, log, hfollows⟩ := follows_of_reachable h (fun _ _ hcode => hcode) hkeeps
  obtain ⟨standing, reads, outcome, hyields⟩ := hfollows.standing h hgone hj
  have henv := hfollows.moment.env
  refine ⟨s, standing, reads, outcome, henv, hyields, fun hinj => ?_⟩
  have hsame := Recordings.Steps.sameBlock standing.later
  have hhash : Set.InjOn standing.finished.env.hash
      (VmDb.touched block.txs[j].toTxEnv standing.trace) := by
    rw [← hsame.hash, henv]
    exact hinj
  obtain ⟨htraced, hidx, htx, hreach, -⟩ := standing.incarnation.traced (subset_refl _) hhash
    fun l v x hx => Recordings.Steps.valueAt standing.later hx
  have hvalidates : VmDb.Validates s.env.mvMemory standing.db := by
    apply VmDb.validates_of_validate
    · rw [hidx]
      exact standing.recorded
    · rw [hidx]
      exact standing.valid
  -- the reads of the incarnation go through again on the memory at the end
  have hagain := htraced.again s.env hsame
    (Recordings.reachable_agrees (Recordings.Steps.reachable hreach standing.later)) hvalidates
  rw [hyields.trace, List.map_append, List.map_append] at hagain
  obtain ⟨opening, hopening, hreads⟩ := VmDb.readAll_append (by simp) hagain
  have hdecided := standing.incarnation.decided.later standing.later (.refl _)
  rw [← htx] at hdecided
  obtain ⟨hcodeHash, hkept, isLazy, hnew, hlazy⟩ :=
    VmDb.new_of_readAll (htraced.mono hsame).hashed hdecided hopening
  rw [hidx, htx] at hnew
  rw [htx] at hlazy
  refine ⟨{ opening with isLazy }, hnew, hcodeHash, hlazy, fun hsameLazy => ?_⟩
  have hopened : { opening with isLazy } = opening := by
    rw [show isLazy = opening.isLazy from hsameLazy.trans hkept.symm]
  have hbytecode : s.env.toBytecode = block.toBytecode := by
    rw [henv]
    rfl
  have hreaches := hyields.reaches
  rw [← hbytecode] at hreaches
  rw [hopened, hreaches.run_eq hreads]
  rfl

/-- The call of the new contract once more, now that the contract is there. -/
theorem reexecutes_of_gone_creation : ∃ (s : Recordings MemoryLocation Unit Unit)
    (standing : Standing creationBlock.toEvmBlock s 1 creationBlock.txs[1]) (opened : _),
    VmDb.new (creationBlock.envAt ParallelEvmBlock.healthyStorage.toStorage
      creationGone.pexe.mvMemory creationGone.newBytecodes) 1 (creationBlock.txAt 1) = .ok opened ∧
    (creationBlock.program 1).run s.env () ParallelEvmBlock.healthyStorage opened =
      .ok ((.ok standing.result, (), standing.calculateTxL1Cost), standing.db) := by
  obtain ⟨s, standing, reads, outcome, henv, -, hagain⟩ :=
    reexecutes_of_gone creationGone_reachable (healthyStorage_keepsCode creationGone.newBytecodes)
      creationGone_gone (show 1 < creationBlock.txs.length by decide)
  obtain ⟨opened, hopened⟩ := hagain Function.injective_id.injOn
  have hnew := hopened.new
  rw [henv] at hnew
  have hfound : (VmDb.new (creationBlock.envAt ParallelEvmBlock.healthyStorage.toStorage
      creationGone.pexe.mvMemory creationGone.newBytecodes) 1
        (creationBlock.txAt 1)).toOption.bind VmDb.toCodeHash = some 9 := by decide +kernel
  have hcode : standing.db.toCodeHash = some 9 := by
    rw [← hopened.toCodeHash, ← hfound]
    exact congrArg (fun found => found.toOption.bind VmDb.toCodeHash) hnew.symm
  refine ⟨s, standing, opened, hnew, hopened.run (hopened.isLazy (.inr (.inr ?_)))⟩
  simp [hcode]

end EvmRun

end Pevm
