import Mathlib.Data.Set.Function
import Pevm.Pexe.Coverage

/-!
# Transaction programs

A transaction that reads storage slots one at a time, and what it does in index order on
the values of the block so far. The machine that executes such transactions in parallel
reads by the rule of `VmDb::storage`.
-/
namespace Pevm
open VersionMap

/-- A transaction as its reads see it: what it reads next depends on the values read before, and so
does what it writes in the end. -/
inductive Prog (Loc ν ρ : Type)
  | read (location : Loc) (next : ν → Prog Loc ν ρ)
  | done (writeSet : WriteSet Loc ν) (result : ρ)

namespace Prog
variable {Loc ν ρ : Type}

/-- The program by itself on a state: what it writes and returns. -/
def run : Prog Loc ν ρ → (Loc → ν) → WriteSet Loc ν × ρ
  | read l next, state => (next (state l)).run state
  | done writeSet result, _ => (writeSet, result)

/-- Every location that the transaction can come to read or write is in the set, whatever it reads.
-/
def Within (L : Set Loc) : Prog Loc ν ρ → Prop
  | read l next => l ∈ L ∧ ∀ x, (next x).Within L
  | done writeSet _ => ∀ e ∈ writeSet, e.1 ∈ L

/-- With these answers the transaction gets from the first program to the second. -/
inductive Reaches (answers : Loc → Option ν) (p : Prog Loc ν ρ) : Prog Loc ν ρ → Prop
  | refl : Reaches answers p p
  | read {l : Loc} {next : ν → Prog Loc ν ρ} {x : ν} :
      Reaches answers p (read l next) → answers l = some x → Reaches answers p (next x)

variable {answers answers' : Loc → Option ν} {L : Set Loc} {p q : Prog Loc ν ρ}

lemma Reaches.mono (h : Reaches answers p q)
    (hle : ∀ l x, answers l = some x → answers' l = some x) : Reaches answers' p q := by
  induction h with
  | refl => exact .refl
  | read _ ha ih => exact .read ih (hle _ _ ha)

lemma Reaches.within (h : Reaches answers p q) (hp : p.Within L) : q.Within L := by
  induction h with
  | refl => exact hp
  | @read l next x _ _ ih => exact ih.2 x

/-- Answers that a state bears out do not change what comes of the transaction in it. -/
theorem Reaches.run_eq (h : Reaches answers p q) (hp : p.Within L) {state : Loc → ν}
    (hstate : ∀ l ∈ L, ∀ x, answers l = some x → state l = x) : p.run state = q.run state := by
  induction h with
  | refl => rfl
  | @read l next x hreach ha ih =>
    have hl : l ∈ L := (hreach.within hp).1
    rw [ih, run, hstate l hl x ha]

end Prog

/-- A block of transaction programs. Locations are known by their hash to the memory only. -/
structure Block (Loc κ ν ρ : Type) where
  tx : ℕ → Prog Loc ν ρ
  hash : Loc → κ
  storage : Loc → ν

namespace Block
variable {Loc κ ν ρ : Type}

section Serial
variable [DecidableEq Loc]

/-- The state before transaction `i` when the block is executed in index order. -/
def serialState (b : Block Loc κ ν ρ) : ℕ → Loc → ν
  | 0 => b.storage
  | i + 1 => fun l =>
    (MvMemory.written ((b.tx i).run (b.serialState i)).1 l).getD (b.serialState i l)

/-- The result of a transaction when the block is executed in index order. -/
def serialResult (b : Block Loc κ ν ρ) (i : ℕ) : ρ := ((b.tx i).run (b.serialState i)).2

end Serial

/-- The write set as the memory has it, by the hashes of the locations. -/
def hashed (b : Block Loc κ ν ρ) (writeSet : WriteSet Loc ν) : WriteSet κ ν :=
  writeSet.map fun e => (b.hash e.1, e.2)

variable [DecidableEq κ]

/-- `VmDb::storage` at any type of locations and values: the closest entry below decides, and the
origin must be the one of an earlier read. -/
def readStorage (b : Block Loc κ ν ρ) (txIdx : ℕ) (mem : MvMemory κ ν) (l : Loc)
    (next : ν → Prog Loc ν ρ) (readSet : ReadSet κ) : VmStep (Prog Loc ν ρ × ReadSet κ) κ ν ρ :=
  let readOrigins := (readSet.lookup (b.hash l)).getD []
  let answer (origin : ReadOrigin) (value : ν) : VmStep (Prog Loc ν ρ × ReadSet κ) κ ν ρ :=
    match pushOrigin readOrigins origin with
    | some readOrigins => .running (next value, readSet.insert (b.hash l) readOrigins)
    | none => .retry
  match if 0 < txIdx then mem.closestEntry (b.hash l) txIdx else none with
  | some (closestIdx, .data txIncarnation value) =>
    answer (.mvMemory ⟨closestIdx, txIncarnation⟩) value
  | some (closestIdx, .estimate) => .blocking closestIdx
  | none => answer .storage (b.storage l)

/-- One step of an execution: its next read, or its end with the flags that `Vm::execute` sets. -/
def execute (b : Block Loc κ ν ρ) (v : TxVersion) (mem : MvMemory κ ν) :
    Prog Loc ν ρ × ReadSet κ → VmStep (Prog Loc ν ρ × ReadSet κ) κ ν ρ
  | (.read l next, readSet) => b.readStorage v.txIdx mem l next readSet
  | (.done writeSet result, readSet) =>
    .finished readSet (b.hashed writeSet)
      (if 0 < v.txIdx then .needValidation else .empty) result

section Reads
variable {b : Block Loc κ ν ρ} {mem : MvMemory κ ν} {l : Loc} {j : ℕ}
  {next : ν → Prog Loc ν ρ} {readSet : ReadSet κ}

lemma readStorage_eq_blocking {k : ℕ}
    (h : b.readStorage j mem l next readSet = .blocking k) : k < j := by
  unfold readStorage at h
  dsimp only at h
  split at h
  · split at h <;> cases h
  · rename_i closestIdx hentry
    cases h
    split_ifs at hentry
    exact (mem.closestEntry_eq_some.mp hentry).1
  · split at h <;> cases h

lemma readStorage_ne_finished {reads : ReadSet κ} {writes : WriteSet κ ν}
    {flags : FinishExecFlags} {result : ρ} :
    b.readStorage j mem l next readSet ≠ .finished reads writes flags result := by
  intro h
  unfold readStorage at h
  dsimp only at h
  split at h
  · split at h <;> cases h
  · cases h
  · split at h <;> cases h

/-- What a read that goes on has seen. -/
theorem readStorage_eq_running {job : Prog Loc ν ρ × ReadSet κ}
    (h : b.readStorage j mem l next readSet = .running job) :
    ∃ origin value readOrigins, job = (next value, readSet.insert (b.hash l) readOrigins) ∧
      pushOrigin ((readSet.lookup (b.hash l)).getD []) origin = some readOrigins ∧
      ((∃ k inc, origin = .mvMemory ⟨k, inc⟩ ∧
          mem.entry (b.hash l) k = some (.data inc value)) ∨
        origin = .storage ∧ value = b.storage l) := by
  unfold readStorage at h
  dsimp only at h
  split at h
  · rename_i closestIdx inc value hentry
    split_ifs at hentry
    have hread := (mem.closestEntry_eq_some.mp hentry).2.1
    split at h
    · rename_i readOrigins hpush
      cases h
      exact ⟨_, _, _, rfl, hpush, .inl ⟨_, _, rfl, hread⟩⟩
    · cases h
  · cases h
  · split at h
    · rename_i readOrigins hpush
      cases h
      exact ⟨_, _, _, rfl, hpush, .inr ⟨rfl, rfl⟩⟩
    · cases h

end Reads

/-- The machine that executes the block's transactions, one read at a time. -/
def vm (b : Block Loc κ ν ρ) : Vm (Prog Loc ν ρ × ReadSet κ) κ ν ρ where
  start v := (b.tx v.txIdx, ∅)
  next v job mem step := step = b.execute v mem job
  blocking_lt := by
    intro v job mem blocking h
    obtain ⟨p, readSet⟩ := job
    cases p with
    | read l next => exact readStorage_eq_blocking h.symm
    | done writeSet result => cases h

section Hashed
variable [DecidableEq Loc] {b : Block Loc κ ν ρ} {L : Set Loc}

/-- Without collisions the hashed write set says of a location what the write set says. -/
theorem written_hashed (hhash : Set.InjOn b.hash L) {writeSet : WriteSet Loc ν}
    (hw : ∀ e ∈ writeSet, e.1 ∈ L) {l : Loc} (hl : l ∈ L) :
    MvMemory.written (b.hashed writeSet) (b.hash l) = MvMemory.written writeSet l := by
  induction writeSet with
  | nil => rfl
  | cons e writeSet ih =>
    have hrest := ih fun e he => hw e (List.mem_cons_of_mem _ he)
    have heq : b.hash e.1 = b.hash l ↔ e.1 = l :=
      ⟨fun h => hhash (hw e List.mem_cons_self) hl h, fun h => by rw [h]⟩
    change MvMemory.written ((b.hash e.1, e.2) :: b.hashed writeSet) (b.hash l) = _
    rw [MvMemory.written_cons, MvMemory.written_cons, hrest]
    simp only [heq]

end Hashed

end Block

end Pevm
