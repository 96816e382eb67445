import Pevm.Lib.Transition
import Pevm.VmDb.Performs

/-!
# Validated reads

The reads of one incarnation while other transactions record and are aborted. They are stable,
and a read set that the validation accepts stands for the values read: the same reads of the
memory that was validated give them again.
-/
namespace Pevm
open Transition

/-- The memory of a block, with the write sets of all that was recorded in it. -/
structure Recordings (κ Code Bytecode : Type) where
  env : VmEnv κ Code Bytecode
  log : TxVersion → Option (WriteSet κ MemoryValue)

namespace Recordings
variable {κ Code Bytecode : Type}

def withMemory (s : Recordings κ Code Bytecode) (mvMemory : MvMemory κ MemoryValue) :
    Recordings κ Code Bytecode :=
  { s with env := { s.env with mvMemory } }

/-- The same recordings with other new code at hand. -/
def withBytecodes (s : Recordings κ Code Bytecode) (newBytecodes : B256 → Option Bytecode) :
    Recordings κ Code Bytecode :=
  { s with env := { s.env with newBytecodes } }

variable [DecidableEq κ]

/-- A version is recorded once, writes become estimates, and code is added that changes no code
that could be loaded before. A code hash that was empty may not become loadable later, so a
block that deploys contracts has all of its new code at hand from the start;
`EvmRun.follows_of_reachable` brings the runs of the workers into this form. -/
inductive Step (s : Recordings κ Code Bytecode) : Recordings κ Code Bytecode → Prop
  | record {version : TxVersion} (readSet : ReadSet κ) (writeSet : WriteSet κ MemoryValue) :
      s.log version = none →
      Step s { s.withMemory (s.env.mvMemory.record version readSet writeSet).2 with
        log := Function.update s.log version (some writeSet) }
  | convert (txIdx : ℕ) : Step s (s.withMemory (s.env.mvMemory.convertWritesToEstimates txIdx))
  | deploy (newBytecodes : B256 → Option Bytecode) :
      (∀ codeHash code, VmDb.loadCode s.env codeHash = .ok code →
        VmDb.loadCode (s.withBytecodes newBytecodes).env codeHash = .ok code) →
      Step s (s.withBytecodes newBytecodes)

/-- Any number of steps of a block, one after the other. -/
abbrev Steps : Recordings κ Code Bytecode → Recordings κ Code Bytecode → Prop :=
  Relation.ReflTransGen Step

/-- All that can happen to the memory from the start of a block. All code is at hand from the start.
-/
def system (κ Code Bytecode : Type) [DecidableEq κ] :
    TransitionSystem (Recordings κ Code Bytecode) where
  init s := (∃ estimated, s.env.mvMemory = MvMemory.new estimated) ∧ s.log = fun _ => none
  step := Step

/-- What a version wrote to a location, by the log. -/
def valueAt (s : Recordings κ Code Bytecode) (l : κ) (v : TxVersion) : Option MemoryValue :=
  (s.log v).bind fun writeSet => MvMemory.written writeSet l

variable {s s' : Recordings κ Code Bytecode} {w w' : κ → TxVersion → Option MemoryValue}

/-- One step keeps what versions wrote. -/
lemma Step.valueAt (h : Step s s') {l : κ} {v : TxVersion} {x : MemoryValue}
    (hx : s.valueAt l v = some x) : s'.valueAt l v = some x := by
  cases h with
  | @record version readSet writeSet hfresh =>
    have hne : v ≠ version := by
      rintro rfl
      simp [Recordings.valueAt, hfresh] at hx
    simpa [Recordings.valueAt, hne] using hx
  | convert => exact hx
  | deploy => exact hx

lemma Step.sameBlock (h : Step s s') : VmDb.SameBlock s.env s'.env := by
  cases h with
  | record => exact ⟨rfl, rfl, rfl, fun _ _ h => h⟩
  | convert => exact ⟨rfl, rfl, rfl, fun _ _ h => h⟩
  | deploy _ hcode => exact ⟨rfl, rfl, rfl, hcode⟩

/-- Every entry is what its version wrote. -/
lemma Step.agrees (h : Step s s') (hagrees : s.env.mvMemory.Agrees s.valueAt) :
    s'.env.mvMemory.Agrees s'.valueAt := by
  have hold : ∀ l k inc x, s.env.mvMemory.entry l k = some (.data inc x) →
      s'.valueAt l ⟨k, inc⟩ = some x := fun l k inc x hentry => h.valueAt (hagrees l k inc x hentry)
  cases h with
  | @record version readSet writeSet hfresh =>
    intro l k inc x hentry
    replace hentry : (s.env.mvMemory.record version readSet writeSet).2.entry l k =
        some (.data inc x) := hentry
    rw [MvMemory.record_entry] at hentry
    split_ifs at hentry with hk hl
    · cases hwritten : MvMemory.written writeSet l with
      | some value =>
        rw [hwritten] at hentry
        cases hentry
        subst hk
        simpa [Recordings.valueAt] using hwritten
      | none =>
        rw [hwritten] at hentry
        cases hentry
    · cases hwritten : MvMemory.written writeSet l with
      | some value =>
        rw [hwritten] at hentry
        cases hentry
        subst hk
        simpa [Recordings.valueAt] using hwritten
      | none =>
        rw [hwritten] at hentry
        exact hold l k inc x hentry
    · exact hold l k inc x hentry
  | convert txIdx =>
    intro l k inc x hentry
    replace hentry : (s.env.mvMemory.convertWritesToEstimates txIdx).entry l k =
        some (.data inc x) := hentry
    rw [MvMemory.convert_entry] at hentry
    split_ifs at hentry
    · cases hentry
    · exact hold l k inc x hentry
  | deploy => exact hold

theorem reachable_agrees (h : (system κ Code Bytecode).Reachable s) :
    s.env.mvMemory.Agrees s.valueAt := by
  induction h with
  | @init s hinit =>
    obtain ⟨⟨estimated, hmemory⟩, -⟩ := hinit
    intro l k inc x hentry
    rw [hmemory] at hentry
    cases MvMemory.new_entry hentry
  | step _ hstep hagrees => exact Step.agrees hstep hagrees

lemma Steps.reachable (hr : (system κ Code Bytecode).Reachable s) (h : Steps s s') :
    (system κ Code Bytecode).Reachable s' := by
  induction h with
  | refl => exact hr
  | tail _ hstep ih => exact .step ih hstep

lemma Steps.sameBlock (h : Steps s s') : VmDb.SameBlock s.env s'.env := by
  induction h with
  | refl => exact .refl _
  | tail _ hstep ih => exact ih.trans hstep.sameBlock

lemma Steps.valueAt (h : Steps s s') {l : κ} {v : TxVersion} {x : MemoryValue}
    (hx : s.valueAt l v = some x) : s'.valueAt l v = some x := by
  induction h with
  | refl => exact hx
  | tail _ hstep ih => exact hstep.valueAt ih

end Recordings

namespace VmDb
variable {κ Code Bytecode : Type}

/-- The same execution with nothing read yet. -/
def restart (db : VmDb κ) : VmDb κ := { db with readSet := ∅, readAccounts := ∅ }

lemma SameTx.restart_eq {db db' : VmDb κ} (h : SameTx db db') : db'.restart = db.restart := by
  obtain ⟨txIdx, tx, fromHash, toHash, toCodeHash, isLazy, readSet, readAccounts⟩ := db
  obtain ⟨txIdx', tx', fromHash', toHash', toCodeHash', isLazy', readSet', readAccounts'⟩ := db'
  obtain ⟨rfl, rfl, rfl, rfl, rfl, rfl⟩ := h
  rfl

variable [DecidableEq κ]

/-- Several reads of one memory, one after the other. -/
def readAll (env : VmEnv κ Code Bytecode) :
    VmDb κ → List Read → Except ReadError (List (Answer Bytecode) × VmDb κ)
  | db, [] => .ok ([], db)
  | db, r :: reads =>
    db.read env env r >>= fun first =>
      readAll env first.2 reads >>= fun rest => .ok (first.1 :: rest.1, rest.2)

/-- What `VmDb::new` has read: the recipient's code hash, for a call. -/
def opening (db : VmDb κ) : List (Read × Answer Bytecode) :=
  match db.tx.transactTo with
  | .create => []
  | .call address => [(.codeHash address, .codeHash db.toCodeHash)]

/-- An incarnation with the reads that went through so far and their answers. The block goes on
between reads; inside `VmDb::new`, between the read of the recipient's code hash and the lookups of
sender and recipient; inside a read of an account, between the walk over its entries, the read of
its code hash and the load of its code. -/
inductive Incarnation (txIdx : ℕ) (tx : TxEnv) :
    Recordings κ Code Bytecode → VmDb κ → List (Read × Answer Bytecode) → Prop
  | new {s s₁ s₂ : Recordings κ Code Bytecode} {db : VmDb κ} :
      (Recordings.system κ Code Bytecode).Reachable s → s.Steps s₁ → s₁.Steps s₂ →
      VmDb.newAcross s.env s₁.env s₂.env txIdx tx = .ok db → Incarnation txIdx tx s₂ db db.opening
  | step {s s' : Recordings κ Code Bytecode} {db : VmDb κ}
      {trace : List (Read × Answer Bytecode)} :
      Incarnation txIdx tx s db trace → s.Step s' → Incarnation txIdx tx s' db trace
  | read {s s₁ s₂ : Recordings κ Code Bytecode} {db db' : VmDb κ}
      {trace : List (Read × Answer Bytecode)} {r : Read} {answer : Answer Bytecode} :
      Incarnation txIdx tx s db trace → s.Steps s₁ → s₁.Steps s₂ →
      db.read s.env (s₁.withBytecodes s₂.env.newBytecodes).env r = .ok (answer, db') →
      Incarnation txIdx tx s₂ db' (trace ++ [(r, answer)])

/-- An incarnation that opens its database while nothing else happens. -/
lemma Incarnation.opened {txIdx : ℕ} {tx : TxEnv} {s : Recordings κ Code Bytecode} {db : VmDb κ}
    (hreach : (Recordings.system κ Code Bytecode).Reachable s)
    (hnew : VmDb.new s.env txIdx tx = .ok db) : Incarnation txIdx tx s db db.opening :=
  .new hreach .refl .refl ((newAcross_self s.env txIdx tx).trans hnew)

/-- Where an incarnation looks, its own accounts included. -/
def touched (tx : TxEnv) (trace : List (Read × Answer Bytecode)) : Set MemoryLocation :=
  {location | location = .basic tx.caller ∨
    (∃ address, tx.toAddress = some address ∧ location = .basic address) ∨
    ∃ p ∈ trace, location ∈ p.1.locations}

section Restart
variable {env : VmEnv κ Code Bytecode} {db db' db'' : VmDb κ} {r : Read} {reads : List Read}
  {answer : Answer Bytecode} {answers : List (Answer Bytecode)}

lemma readAll_concat (h : db.readAll env reads = .ok (answers, db'))
    (hlast : db'.read env env r = .ok (answer, db'')) :
    db.readAll env (reads ++ [r]) = .ok (answers ++ [answer], db'') := by
  induction reads generalizing db answers with
  | nil =>
    cases h
    simp [readAll, hlast]
  | cons first reads ih =>
    rw [readAll] at h
    obtain ⟨⟨answer₁, db₁⟩, hfirst, hrest⟩ := Fallible.bind_eq_ok.mp h
    obtain ⟨⟨answers₁, db₂⟩, hreads, heq⟩ := Fallible.bind_eq_ok.mp hrest
    cases heq
    rw [List.cons_append, readAll, hfirst, Fallible.ok_bind, ih hreads]
    rfl

@[simp] lemma readOrigins_restart (db : VmDb κ) (l : κ) : db.restart.readOrigins l = [] := rfl

lemma tracked_restart (w : κ → TxVersion → Option MemoryValue) (env : VmEnv κ Code Bytecode)
    (L : Set MemoryLocation) (db : VmDb κ) : Tracked w env L db.restart := by
  intro location _
  cases location with
  | basic address => exact .inl rfl
  | codeHash address => simp
  | storage address index => simp

/-- A new database has read the recipient's code hash, for a call, and nothing else. -/
lemma newAcross_eq_ok {envFrom envTo : VmEnv κ Code Bytecode} {txIdx : ℕ} {tx : TxEnv}
    {w : κ → TxVersion → Option MemoryValue} (hagrees : env.mvMemory.Agrees w)
    (h : VmDb.newAcross env envFrom envTo txIdx tx = .ok db) :
    db.txIdx = txIdx ∧ db.tx = tx ∧ Hashed env db ∧
      ((tx.transactTo = .create ∧ db = db.restart) ∨
        ∃ address, tx.transactTo = .call address ∧
          Performs w env db.restart (.codeHash address)
            (.codeHash db.toCodeHash : Answer Bytecode) db) := by
  unfold VmDb.newAcross at h
  dsimp only at h
  split at h
  · rename_i hcreate
    cases h
    exact ⟨rfl, rfl, ⟨rfl, rfl⟩, .inl ⟨hcreate, rfl⟩⟩
  · rename_i address hcall
    obtain ⟨⟨codeHash, db₁⟩, hhash, heq⟩ := Fallible.bind_eq_ok.mp h
    obtain ⟨origin, hpush, hfrom⟩ := getCodeHash_from hagrees hhash
    cases hpush
    cases heq
    exact ⟨rfl, rfl, ⟨rfl, rfl⟩, .inr ⟨address, hcall, .codeHash rfl hfrom⟩⟩

end Restart

section Traced
variable {w : κ → TxVersion → Option MemoryValue} {env env' : VmEnv κ Code Bytecode}
  {L : Set MemoryLocation} {db db' : VmDb κ} {trace : List (Read × Answer Bytecode)} {r : Read}
  {answer : Answer Bytecode}

/-- A read that an execution has made on its way to its present state. -/
def Made (w : κ → TxVersion → Option MemoryValue) (env : VmEnv κ Code Bytecode)
    (L : Set MemoryLocation) (db : VmDb κ) (p : Read × Answer Bytecode) : Prop :=
  ∃ db₀ db₁, Tracked w env L db₀ ∧ SameTx db₀ db ∧ Performs w env db₀ p.1 p.2 db₁ ∧ Grows db₁ db

/-- What is known of an execution by the reads that it has made. Its last field is the point: on a
memory on which they validate, the same reads have the same answers. -/
structure Traced (w : κ → TxVersion → Option MemoryValue) (env : VmEnv κ Code Bytecode)
    (L : Set MemoryLocation) (db : VmDb κ) (trace : List (Read × Answer Bytecode)) : Prop where
  hashed : Hashed env db
  tracked : Tracked w env L db
  made : ∀ p ∈ trace, Made w env L db p
  stable : ∀ r answer answer', (r, answer) ∈ trace → (r, answer') ∈ trace → answer = answer'
  again : ∀ env', SameBlock env env' → env'.mvMemory.Agrees w → Validates env'.mvMemory db →
    db.restart.readAll env' (trace.map Prod.fst) = .ok (trace.map Prod.snd, db)

lemma Tracked.mono (h : Tracked w env L db) (hsame : SameBlock env env') :
    Tracked w env' L db := by
  intro location hmem
  rw [hsame.hash]
  exact h location hmem

lemma Traced.mono (h : Traced w env L db trace) (hsame : SameBlock env env') :
    Traced w env' L db trace where
  hashed := by
    constructor
    · rw [hsame.hash, h.hashed.fromHash]
    · rw [hsame.hash, h.hashed.toHash]
  tracked := h.tracked.mono hsame
  made p hp := by
    obtain ⟨db₀, db₁, htracked, htx, hperforms, hgrows⟩ := h.made p hp
    exact ⟨db₀, db₁, htracked.mono hsame, htx, hperforms.mono hsame, hgrows⟩
  stable := h.stable
  again env'' hsame' := h.again env'' (hsame.trans hsame')

lemma traced_restart (w : κ → TxVersion → Option MemoryValue) (hashed : Hashed env db) :
    Traced w env L db.restart ([] : List (Read × Answer Bytecode)) where
  hashed := ⟨hashed.fromHash, hashed.toHash⟩
  tracked := tracked_restart w env L db
  made := by simp
  stable := by simp
  again _ _ _ _ := rfl

/-- One more read. -/
theorem Traced.read (hinj : Set.InjOn env.hash L)
    (hlocations : ∀ location ∈ r.locations, location ∈ L) (h : Traced w env L db trace)
    (hperforms : Performs w env db r answer db') :
    Traced w env L db' (trace ++ [(r, answer)]) := by
  have hkeeps := hperforms.keeps hinj h.hashed hlocations h.tracked
  have hold : ∀ p ∈ trace, Made w env L db' p := by
    intro p hp
    obtain ⟨db₀, db₁, htracked, htx, hmade, hgrows⟩ := h.made p hp
    exact ⟨db₀, db₁, htracked, htx.trans hkeeps.sameTx, hmade, hgrows.trans hkeeps.grows⟩
  -- the new read meets what an earlier one of the same location left
  have hrepeat : ∀ answer', (r, answer') ∈ trace → answer' = answer := by
    intro answer' hp
    obtain ⟨db₀, db₁, htracked, htx, hmade, hgrows⟩ := h.made _ hp
    exact hmade.unique hinj (h.hashed.of_sameTx htx.symm) hlocations htracked h.tracked htx hgrows
      hperforms
  constructor
  · exact h.hashed.of_sameTx hkeeps.sameTx
  · exact hkeeps.tracked
  · intro p hp
    rcases List.mem_append.mp hp with hp | hp
    · exact hold p hp
    · rw [List.mem_singleton.mp hp]
      exact ⟨db, db', h.tracked, hkeeps.sameTx, hperforms, .refl db'⟩
  · intro r' answer₁ answer₂ h₁ h₂
    simp only [List.mem_append, List.mem_singleton, Prod.mk.injEq] at h₁ h₂
    rcases h₁ with h₁ | ⟨rfl, rfl⟩
    · rcases h₂ with h₂ | ⟨rfl, rfl⟩
      · exact h.stable r' answer₁ answer₂ h₁ h₂
      · exact hrepeat answer₁ h₁
    · rcases h₂ with h₂ | ⟨-, rfl⟩
      · exact (hrepeat answer₂ h₂).symm
      · rfl
  · intro env' hsame hagrees hvalid
    have hbefore := h.again env' hsame hagrees
      (hvalid.of_grows hkeeps.sameTx.txIdx hkeeps.grows)
    have hhash : Set.InjOn env'.hash L := by
      rw [hsame.hash]
      exact hinj
    have hlast := (hperforms.mono hsame).read_again hhash (h.mono hsame).hashed hlocations
      (h.tracked.mono hsame) hagrees hvalid
    rw [hkeeps.sameTx.restart_eq, List.map_append, List.map_append]
    exact readAll_concat hbefore hlast

/-- The code hash that a read of an account finds is the one that a read of the code hash gives. -/
lemma HashRead.eq_of_performs {address : Address} {l : κ} {codeHash codeHash' : Option B256}
    {db₁ db₂ db₃ : VmDb κ} (hinj : Set.InjOn env.hash L) (hmem : .codeHash address ∈ L)
    (htracked : Tracked w env L db) (htracked' : Tracked w env L db₂)
    (h' : Performs w env db₂ (.codeHash address) (.codeHash codeHash' : Answer Bytecode) db₃)
    (hgrows : Grows db₁ db') (hgrows' : Grows db₃ db')
    (h : HashRead w env db address l codeHash db₁)
    (hknown : some l = db.toHash → db.toCodeHash = codeHash') : codeHash = codeHash' := by
  cases h' with
  | codeHash hpush' hfrom' =>
    cases h with
    | known hto => exact hknown hto
    | read _ hpush hfrom =>
      have hfirst := (keeps_push hinj hmem (by simp) htracked hpush).2
      have hsecond := (keeps_push hinj hmem (by simp) htracked' hpush').2
      have hsame := hgrows (env.hash (.codeHash address)) (by simp [hfirst])
      rw [hgrows' (env.hash (.codeHash address)) (by simp [hsecond]), hfirst, hsecond] at hsame
      obtain rfl := List.singleton_inj.mp hsame
      exact hfrom.unique hfrom'

end Traced

section Runs
variable {txIdx : ℕ} {tx : TxEnv} {s s' : Recordings κ Code Bytecode} {db : VmDb κ}
  {trace : List (Read × Answer Bytecode)} {L : Set MemoryLocation}
  {w : κ → TxVersion → Option MemoryValue}

/-- The code of a later moment goes with the memory of an earlier one. -/
lemma withBytecodes_sameBlock (h : s.Steps s') :
    SameBlock s.env (s.withBytecodes s'.env.newBytecodes).env ∧
      SameBlock (s.withBytecodes s'.env.newBytecodes).env s'.env := by
  have hsame := Recordings.Steps.sameBlock h
  have hload : ∀ codeHash, loadCode (s.withBytecodes s'.env.newBytecodes).env codeHash =
      loadCode s'.env codeHash := by
    intro codeHash
    unfold loadCode
    rw [hsame.storage, hsame.toBytecode]
    rfl
  constructor
  · refine ⟨rfl, rfl, rfl, fun codeHash code hcode => ?_⟩
    rw [hload]
    exact hsame.code codeHash code hcode
  · refine ⟨hsame.hash, hsame.storage, hsame.toBytecode, fun codeHash code hcode => ?_⟩
    rwa [← hload]

theorem Incarnation.traced (h : Incarnation txIdx tx s db trace) (hL : touched tx trace ⊆ L)
    (hinj : Set.InjOn s.env.hash L)
    (hw : ∀ l v x, s.valueAt l v = some x → w l v = some x) :
    Traced w s.env L db trace ∧ db.txIdx = txIdx ∧ db.tx = tx ∧
      (Recordings.system κ Code Bytecode).Reachable s ∧ ∀ p ∈ db.opening, p ∈ trace := by
  induction h with
  | @new s s₁ s₂ db hreach hsteps₁ hsteps₂ hnew =>
    have hsteps := hsteps₁.trans hsteps₂
    have hsame := Recordings.Steps.sameBlock hsteps
    rw [hsame.hash] at hinj
    have hagrees := (Recordings.reachable_agrees hreach).mono fun l v x hx =>
      hw l v x (Recordings.Steps.valueAt hsteps hx)
    obtain ⟨hidx, htx, hashed, hopening⟩ := newAcross_eq_ok hagrees hnew
    have hstart := traced_restart (L := L) w hashed
    refine ⟨?_, hidx, htx, Recordings.Steps.reachable hreach hsteps, fun p hp => hp⟩
    -- the code hash is that of the first moment
    refine Traced.mono ?_ hsame
    rcases hopening with ⟨hcreate, heq⟩ | ⟨address, hcall, hperforms⟩
    · have hnone : db.opening = ([] : List (Read × Answer Bytecode)) := by
        unfold opening
        rw [htx, hcreate]
      rw [hnone, heq]
      exact hstart
    · have hone :
          db.opening = [(.codeHash address, (.codeHash db.toCodeHash : Answer Bytecode))] := by
        unfold opening
        rw [htx, hcall]
      rw [hone] at hL ⊢
      refine hstart.read hinj (fun location hlocation => hL ?_) hperforms
      exact .inr (.inr ⟨_, List.mem_singleton_self _, hlocation⟩)
  | @step s s' db trace _ hstep ih =>
    have hsame := Recordings.Step.sameBlock hstep
    rw [hsame.hash] at hinj
    obtain ⟨htraced, hidx, htx, hreach, hopening⟩ :=
      ih hL hinj fun l v x hx => hw l v x (hstep.valueAt hx)
    exact ⟨htraced.mono hsame, hidx, htx, .step hreach hstep, hopening⟩
  | @read s s₁ s₂ db db' trace r answer _ hsteps₁ hsteps₂ hread ih =>
    obtain ⟨hbefore, hafter⟩ := withBytecodes_sameBlock hsteps₂
    have hsame₁ := (Recordings.Steps.sameBlock hsteps₁).trans hbefore
    have hsame := hsame₁.trans hafter
    have hw₁ : ∀ l v x, s₁.valueAt l v = some x → w l v = some x :=
      fun l v x hx => hw l v x (Recordings.Steps.valueAt hsteps₂ hx)
    have hw₀ : ∀ l v x, s.valueAt l v = some x → w l v = some x :=
      fun l v x hx => hw₁ l v x (Recordings.Steps.valueAt hsteps₁ hx)
    have hhash : Set.InjOn s.env.hash L := by
      rw [← hsame.hash]
      exact hinj
    have hearlier : touched tx trace ⊆ L := by
      rintro location (hcaller | hto | ⟨p, hp, hlocation⟩)
      · exact hL (.inl hcaller)
      · exact hL (.inr (.inl hto))
      · exact hL (.inr (.inr ⟨p, List.mem_append_left _ hp, hlocation⟩))
    have hlocations : ∀ location ∈ r.locations, location ∈ L := by
      intro location hlocation
      exact hL (.inr (.inr ⟨(r, answer), by simp, hlocation⟩))
    obtain ⟨htraced, hidx, htx, hreach, hopening⟩ := ih hearlier hhash hw₀
    have hreach₁ := Recordings.Steps.reachable hreach hsteps₁
    have hagrees₁ : s₁.env.mvMemory.Agrees w :=
      (Recordings.reachable_agrees hreach₁).mono hw₁
    have hperforms := read_performs hsame₁ htraced.hashed htraced.tracked hlocations
      ((Recordings.reachable_agrees hreach).mono hw₀)
      hagrees₁ hread
    have hkeeps := (hperforms.mono hafter).keeps hinj (htraced.mono hsame).hashed hlocations
      (htraced.mono hsame).tracked
    refine ⟨(htraced.mono hsame).read hinj hlocations (hperforms.mono hafter), ?_, ?_,
      Recordings.Steps.reachable hreach₁ hsteps₂, ?_⟩
    · rw [hkeeps.sameTx.txIdx, hidx]
    · rw [hkeeps.sameTx.tx, htx]
    · intro p hp
      have hsameOpening : db'.opening = (db.opening : List (Read × Answer Bytecode)) := by
        unfold opening
        rw [hkeeps.sameTx.tx, hkeeps.sameTx.toCodeHash]
      rw [hsameOpening] at hp
      exact List.mem_append_left _ (hopening p hp)

lemma validates_of_validate {mem : MvMemory κ MemoryValue}
    (hread : (mem.lastLocations db.txIdx).read = db.readSet)
    (h : mem.validateReadLocations db.txIdx = true) : Validates mem db := by
  intro l hl
  rw [MvMemory.validateReadLocations_iff, hread] at h
  unfold readOrigins at hl ⊢
  cases hlookup : db.readSet.lookup l with
  | none => simp [hlookup] at hl
  | some origins => exact h ⟨l, origins⟩ (AList.mem_lookup_iff.mp hlookup)

/-- Reads that the validation accepts, whatever happened to the memory in between and since, go
through again and give the same values with the same origins. The locations that the incarnation
touched have different hashes. -/
theorem validated_reads_repeat (h : Incarnation txIdx tx s db trace)
    (hcollision : Set.InjOn s.env.hash (touched tx trace)) (hlater : s.Steps s')
    (hrecorded : (s'.env.mvMemory.lastLocations txIdx).read = db.readSet)
    (hvalid : s'.env.mvMemory.validateReadLocations txIdx = true) :
    db.restart.readAll s'.env (trace.map Prod.fst) = .ok (trace.map Prod.snd, db) := by
  obtain ⟨htraced, hidx, -, hreach, -⟩ := h.traced (subset_refl _) hcollision
    fun l v x hx => Recordings.Steps.valueAt hlater hx
  have hagrees := Recordings.reachable_agrees (Recordings.Steps.reachable hreach hlater)
  subst hidx
  exact htraced.again s'.env (Recordings.Steps.sameBlock hlater) hagrees
    (validates_of_validate hrecorded hvalid)

/-- Two reads of one location by one incarnation give the same value, whatever happens to the memory
in between. The code hash of an account that was looked up is the one that a read of the code hash
gives. The locations that the incarnation touched have different hashes. -/
theorem reads_stable (h : Incarnation txIdx tx s db trace)
    (hcollision : Set.InjOn s.env.hash (touched tx trace)) :
    (∀ r answer answer', (r, answer) ∈ trace → (r, answer') ∈ trace → answer = answer') ∧
      ∀ address info codeHash, db.mock s.env (db.hashBasic s.env address) = none →
        (.basic address, .basic (some info)) ∈ trace →
        (.codeHash address, .codeHash codeHash) ∈ trace →
        info.codeHash = codeHash.getD keccakEmpty := by
  obtain ⟨htraced, -, htx, -, hopening⟩ := h.traced (subset_refl _) hcollision fun _ _ _ hx => hx
  refine ⟨htraced.stable, fun address info codeHash hmock hbasic hhash => ?_⟩
  have hmem : ∀ location ∈ (Read.basic address).locations, location ∈ touched tx trace :=
    fun location hlocation => .inr (.inr ⟨_, hbasic, hlocation⟩)
  have hmemHash : MemoryLocation.codeHash address ∈ touched tx trace :=
    hmem _ (by simp [Read.locations])
  obtain ⟨db₀, db₁, htracked, hsame, hmade, hgrows⟩ := htraced.made _ hbasic
  obtain ⟨db₂, db₃, htracked', -, hmade', hgrows'⟩ := htraced.made _ hhash
  have hashed := htraced.hashed.of_sameTx hsame.symm
  have hmocks : db₀.mock s.env (db₀.hashBasic s.env address) = none := by
    rw [hashed.hashBasic_eq]
    rw [htraced.hashed.hashBasic_eq] at hmock
    unfold mock at hmock ⊢
    rwa [hsame.isLazy, hsame.fromHash, hsame.toHash, hsame.tx] at hmock
  cases hmade with
  | mock hmock' =>
    rw [hmocks] at hmock'
    cases hmock'
  | @account _ _ _ _ _ codeHash' _ hashedDb _ hread hchain _ _ hhashRead _ =>
    rw [hashed.hashBasic_eq] at *
    have hmemBasic : MemoryLocation.basic address ∈ touched tx trace :=
      hmem _ (by simp [Read.locations])
    have hfirst := (keeps_register hcollision hmemBasic htracked hread hchain).1
    have hlater : Grows hashedDb db := hgrows
    show codeHash'.getD keccakEmpty = codeHash.getD keccakEmpty
    rw [hhashRead.eq_of_performs hcollision hmemHash hfirst.tracked htracked' hmade' hlater hgrows']
    intro hto
    rw [hfirst.sameTx.toHash, ← hsame.toHash, htraced.hashed.toHash, htx] at hto
    obtain ⟨recipient, hrecipient, heq⟩ := Option.map_eq_some_iff.mp hto.symm
    -- the account read is the recipient, whose code hash the incarnation has read first
    have hsameAddress := hcollision (.inr (.inl ⟨recipient, hrecipient, rfl⟩)) hmemBasic heq
    cases hsameAddress
    have hfirstRead : (.codeHash address, .codeHash db.toCodeHash) ∈ trace := by
      apply hopening
      have hcall : db.tx.transactTo = .call address := by
        rw [htx]
        exact TxEnv.toAddress_eq_some.mp hrecipient
      simp [opening, hcall]
    have hanswer := htraced.stable _ _ _ hfirstRead hhash
    rw [hfirst.sameTx.toCodeHash, ← hsame.toCodeHash]
    exact Answer.codeHash.inj hanswer

end Runs

section Sample

/-- A block on an empty storage. -/
def emptyBlock : Recordings MemoryLocation Unit Unit where
  env :=
    { hash := id
      storage :=
        { basic := fun _ => .ok none
          codeHash := fun _ => .ok none
          codeByHash := fun _ => .ok none
          storage := fun _ _ => .ok 0 }
      mvMemory := MvMemory.new []
      newBytecodes := fun _ => none
      toBytecode := fun _ => none }
  log _ := none

/-- Transaction 0 has sent 100 to account 7. -/
def sentBlock : Recordings MemoryLocation Unit Unit :=
  { emptyBlock.withMemory
      (emptyBlock.env.mvMemory.record ⟨0, 0⟩ ∅ [(.basic 7, .lazyRecipient 100)]).2 with
    log := Function.update emptyBlock.log ⟨0, 0⟩ (some [(.basic 7, .lazyRecipient 100)]) }

lemma sentBlock_reachable : (Recordings.system MemoryLocation Unit Unit).Reachable sentBlock := by
  have hrecord : emptyBlock.Step sentBlock := .record ∅ _ rfl
  exact .step (.init ⟨⟨[], rfl⟩, rfl⟩) hrecord

/-- A contract creation by account 1, as transaction 1. -/
def creation : TxEnv where
  caller := 1
  gasLimit := 100000
  gasPrice := 0
  transactTo := .create
  value := 0
  nonce := none
  gasPriorityFee := none
  blobHashes := []
  maxFeePerBlobGas := none

def creationStart : VmDb MemoryLocation where
  txIdx := 1
  tx := creation
  fromHash := .basic 1
  toHash := none
  toCodeHash := none
  isLazy := false
  readSet := ∅
  readAccounts := ∅

/-- It has read account 7. -/
def creationRead : VmDb MemoryLocation :=
  ((creationStart.withOrigins (.basic 7) [.mvMemory ⟨0, 0⟩, .storage]).withOrigins (.codeHash 7)
    [.storage]).cacheAccount (.basic 7) ⟨100, 0⟩ none

def received : Answer Unit := .basic (some ⟨100, 0, keccakEmpty, none⟩)

lemma creation_incarnation : Incarnation 1 creation sentBlock creationRead
    [(.basic 7, received)] := by
  have hnew : Incarnation 1 creation sentBlock creationStart ([] : List (Read × Answer Unit)) :=
    .new sentBlock_reachable .refl .refl rfl
  exact .read hnew .refl .refl rfl

def abortedBlock : Recordings MemoryLocation Unit Unit :=
  sentBlock.withMemory (sentBlock.env.mvMemory.convertWritesToEstimates 2)

lemma creation_incarnation_again : Incarnation 1 creation abortedBlock creationRead
    [(.basic 7, received), (.basic 7, received)] := by
  have haborted : Incarnation 1 creation abortedBlock creationRead [(.basic 7, received)] :=
    .step creation_incarnation (.convert 2)
  exact .read haborted .refl .refl rfl

/-- Read again after the abort of another transaction, account 7 is not missing. -/
theorem reads_stable_creation : (Read.basic 7, (Answer.basic none : Answer Unit)) ∉
    [(Read.basic 7, received), (Read.basic 7, received)] := by
  intro hmissing
  have hsame := (reads_stable creation_incarnation_again Function.injective_id.injOn).1 _ _ _
    hmissing List.mem_cons_self
  cases hsame

/-- The creation has recorded what it read. -/
def recordedBlock : Recordings MemoryLocation Unit Unit :=
  { sentBlock.withMemory (sentBlock.env.mvMemory.record ⟨1, 0⟩ creationRead.readSet []).2 with
    log := Function.update sentBlock.log ⟨1, 0⟩ (some []) }

lemma sentBlock_steps : sentBlock.Steps recordedBlock := by
  have hrecord : sentBlock.Step recordedBlock := .record creationRead.readSet [] rfl
  exact .single hrecord

/-- It is valid, and reads the same again. -/
theorem validated_reads_repeat_creation :
    creationStart.readAll recordedBlock.env [.basic 7] = .ok ([received], creationRead) :=
  validated_reads_repeat creation_incarnation Function.injective_id.injOn sentBlock_steps rfl
    (by decide)

end Sample

end VmDb

end Pevm
