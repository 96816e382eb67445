import Pevm.Pexe.History

/-!
# Serial equivalence

When all workers have left, every transaction is done and no read set is stale. So each
transaction has read what its predecessors left, and by induction on the index this is the
state of the block executed in order.
-/
namespace Pevm
open VersionMap

namespace MvMemory
variable {κ ν : Type} {mem : MvMemory κ ν} {l : κ} {i j : ℕ}

/-- The entry of the highest transaction at a location, which is what the block leaves there. -/
def IsHighest (mem : MvMemory κ ν) (l : κ) (i : ℕ) (e : MemoryEntry ν) : Prop :=
  mem.entry l i = some e ∧ ∀ j, i < j → mem.entry l j = none

lemma closestEntry_succ :
    mem.closestEntry l (j + 1) =
      match mem.entry l j with
      | some e => some (j, e)
      | none => mem.closestEntry l j := by
  unfold closestEntry entry
  cases mem.data l with
  | none => rfl
  | some m =>
    simp only [Option.bind_some, closestBelow]
    cases m j <;> rfl

/-- A read of an entry is valid while this version's entry is the closest one. -/
lemma closestEntry_of_validate {v : TxVersion}
    (h : mem.validateLocation j l [.mvMemory v] = true) :
    ∃ x, mem.closestEntry l j = some (v.txIdx, .data v.txIncarnation x) := by
  unfold validateLocation at h
  unfold closestEntry
  cases hdata : mem.data l with
  | none => simp [hdata] at h
  | some m =>
    rw [hdata] at h
    dsimp only [originsMatch, Option.bind_some] at h ⊢
    cases hclosest : closestBelow m j with
    | none => simp [hclosest] at h
    | some closest =>
      obtain ⟨k, e⟩ := closest
      cases e with
      | estimate => simp [hclosest] at h
      | data inc x =>
        have hsame : k = v.txIdx ∧ v.txIncarnation = inc := by simpa [hclosest] using h
        exact ⟨x, by rw [hsame.1, hsame.2]⟩

/-- A read of the storage is valid while there is no lower entry. -/
lemma closestEntry_of_validate_storage (h : mem.validateLocation j l [.storage] = true) :
    mem.closestEntry l j = none := by
  unfold validateLocation at h
  unfold closestEntry
  cases hdata : mem.data l with
  | none => rfl
  | some m =>
    rw [hdata] at h
    dsimp only [originsMatch, Option.bind_some] at h ⊢
    cases hclosest : closestBelow m j with
    | none => rfl
    | some closest => simp [hclosest] at h

end MvMemory

namespace Block
variable {Loc κ ν ρ : Type}

section View
variable (b : Block Loc κ ν ρ)

/-- The value that a reader at `j` finds, in the memory or else in the storage. -/
def view (mem : MvMemory κ ν) (j : ℕ) (l : Loc) : ν :=
  match mem.closestEntry (b.hash l) j with
  | some (_, .data _ x) => x
  | _ => b.storage l

variable {b} {L : Set Loc} {log : Log κ ν} {mem : MvMemory κ ν} {j : ℕ} {result : ρ}

/-- A reader above `j` finds the entry of `j` first. -/
lemma view_succ {inc : ℕ} {l : Loc} {written : Option ν}
    (hentry : mem.entry (b.hash l) j = written.map (.data inc)) :
    b.view mem (j + 1) l = written.getD (b.view mem j l) := by
  unfold view
  rw [MvMemory.closestEntry_succ, hentry]
  cases written with
  | none => rfl
  | some x => rfl

variable [DecidableEq κ]

/-- What a valid read set answers is what a reader finds. -/
lemma view_of_answers {readSet : ReadSet κ}
    (hentries : ∀ key i inc x, mem.entry key i = some (.data inc x) →
      ∃ writeSet, log ⟨i, inc⟩ = some writeSet ∧ MvMemory.written writeSet key = some x)
    (hvalid : ∀ e ∈ readSet.entries, mem.validateLocation j e.1 e.2 = true) {l : Loc} {x : ν}
    (h : b.answers log readSet l = some x) : b.view mem j l = x := by
  obtain ⟨origin, hlookup, hx⟩ := answers_eq_some.mp h
  have hmatch : mem.validateLocation j (b.hash l) [origin] = true :=
    hvalid ⟨b.hash l, [origin]⟩ (AList.mem_lookup_iff.mp hlookup)
  cases origin with
  | storage =>
    have hclosest := MvMemory.closestEntry_of_validate_storage hmatch
    have hxs : b.storage l = x := Option.some.inj hx
    simp [view, hclosest, hxs]
  | mvMemory v =>
    obtain ⟨y, hclosest⟩ := MvMemory.closestEntry_of_validate hmatch
    obtain ⟨-, hentry, -⟩ := mem.closestEntry_eq_some.mp hclosest
    obtain ⟨writeSet, hlog, hy⟩ := hentries _ _ _ _ hentry
    have hxy : y = x := by simpa [originValue, hlog, hy] using hx
    simp [view, hclosest, hxy]

variable [DecidableEq Loc]

/-- A transaction with a valid read set has run in the state its predecessors left. -/
lemma Outcome.run_eq (h : b.Outcome L log mem j result) (hwithin : (b.tx j).Within L)
    (hentries : ∀ key i inc x, mem.entry key i = some (.data inc x) →
      ∃ writeSet, log ⟨i, inc⟩ = some writeSet ∧ MvMemory.written writeSet key = some x)
    (hvalid : mem.validateReadLocations j = true)
    (hview : ∀ l ∈ L, b.view mem j l = b.serialState j l) :
    result = b.serialResult j ∧ ∃ inc, ∀ l ∈ L, mem.entry (b.hash l) j =
      (MvMemory.written ((b.tx j).run (b.serialState j)).1 l).map (.data inc) := by
  obtain ⟨writeSet, inc, hfollows, hentry⟩ := h
  have hrun : (b.tx j).run (b.serialState j) = (writeSet, result) := by
    apply hfollows.reaches.run_eq hwithin
    intro l hl x hx
    rw [← hview l hl]
    exact view_of_answers hentries (MvMemory.validateReadLocations_iff.mp hvalid) hx
  rw [serialResult, hrun]
  exact ⟨rfl, inc, hentry⟩

end View

section Runs
variable [DecidableEq κ] {W : Type} [DecidableEq W] [Nonempty W]
  {b : Block Loc κ ν ρ} {L : Set Loc} {n : ℕ} {estimatedLocations : List (κ × List ℕ)}
  {σ : Pexe W (Prog Loc ν ρ × ReadSet κ) κ ν ρ}

variable [DecidableEq Loc]

/-- The entries and the results of a finished block are those of its execution in order. -/
theorem entries_of_gone (hhash : Set.InjOn b.hash L) (hwithin : ∀ i < n, (b.tx i).Within L)
    (hest : ∀ e ∈ estimatedLocations, ∀ l ∈ L, b.hash l ≠ e.1)
    (h : (Pexe.system W b.vm n estimatedLocations).Reachable σ)
    (hgone : ∀ w, σ.phase w = .gone) {j : ℕ} (hj : j ≤ n) :
    (∀ l ∈ L, b.view σ.mvMemory j l = b.serialState j l) ∧
      ∀ i < j, σ.executionResults i = some (b.serialResult i) ∧
        ∃ inc, ∀ l ∈ L, σ.mvMemory.entry (b.hash l) i =
          (MvMemory.written ((b.tx i).run (b.serialState i)).1 l).map (.data inc) := by
  obtain ⟨log, hlog⟩ := History.of_reachable h
  induction j with
  | zero =>
    constructor
    · intro l _
      have hnone : σ.mvMemory.closestEntry (b.hash l) 0 = none :=
        σ.mvMemory.closestEntry_eq_none.mpr fun i hi => absurd hi (by omega)
      simp [view, hnone, serialState]
    · intro i hi
      omega
  | succ j ih =>
    obtain ⟨hview, hbelow⟩ := ih (by omega)
    obtain ⟨hdone, hvalid⟩ := Pexe.valid_of_gone h hgone (show j < n by omega)
    obtain ⟨result, hresult, hkept⟩ := hlog.chronicle.done j hdone
    have houtcome := hlog.outcome hhash (hwithin j (by omega)) hest hkept
    obtain ⟨rfl, inc, hentry⟩ :=
      houtcome.run_eq (hwithin j (by omega)) hlog.entries hvalid hview
    constructor
    · intro l hl
      rw [view_succ (hentry l hl), hview l hl]
      rfl
    · intro i hi
      by_cases hij : i = j
      · subst hij
        exact ⟨hresult, inc, hentry⟩
      · exact hbelow i (by omega)

/-- Block-STM is serial execution: when every worker has left, the highest entry of a location is
the final value of the execution in index order, a location without an entry was written by no
transaction, and the results are those of the execution in index order. `hhash` and `hwithin`: the
programs stay in a set of locations with different hashes. `hest`: estimates that the block begins
with lie off these locations, since no program need write there. -/
theorem serial_equivalence (hhash : Set.InjOn b.hash L) (hwithin : ∀ i < n, (b.tx i).Within L)
    (hest : ∀ e ∈ estimatedLocations, ∀ l ∈ L, b.hash l ≠ e.1)
    (h : (Pexe.system W b.vm n estimatedLocations).Reachable σ)
    (hgone : ∀ w, σ.phase w = .gone) :
    (∀ l ∈ L,
      (∃ i inc, σ.mvMemory.IsHighest (b.hash l) i (.data inc (b.serialState n l))) ∨
      (∀ i, σ.mvMemory.entry (b.hash l) i = none) ∧
        (∀ i < n, MvMemory.written ((b.tx i).run (b.serialState i)).1 l = none) ∧
        b.serialState n l = b.storage l) ∧
    ∀ i < n, σ.executionResults i = some (b.serialResult i) := by
  obtain ⟨log, hlog⟩ := History.of_reachable h
  obtain ⟨hview, hbelow⟩ := entries_of_gone hhash hwithin hest h hgone (le_refl n)
  constructor
  · intro l hl
    have habove : ∀ i, n ≤ i → σ.mvMemory.entry (b.hash l) i = none := by
      intro i hi
      by_contra hentry
      have hlisted := hlog.listed hest hl hentry
      rw [Pexe.lastLocations_write_of_le h hi] at hlisted
      cases hlisted
    have hfinal := hview l hl
    cases hclosest : σ.mvMemory.closestEntry (b.hash l) n with
    | none =>
      right
      have hnone := σ.mvMemory.closestEntry_eq_none.mp hclosest
      refine ⟨fun i => ?_, fun i hi => ?_, ?_⟩
      · by_cases hi : i < n
        · exact hnone i hi
        · exact habove i (by omega)
      · obtain ⟨-, inc, hentry⟩ := hbelow i hi
        have hmap := hentry l hl
        rw [hnone i hi] at hmap
        simpa using hmap.symm
      · rw [← hfinal]
        simp [view, hclosest]
    | some closest =>
      left
      obtain ⟨k, e⟩ := closest
      obtain ⟨hk, hentry, hhigher⟩ := σ.mvMemory.closestEntry_eq_some.mp hclosest
      obtain ⟨-, inc, hwritten⟩ := hbelow k hk
      have hmap := hwritten l hl
      rw [hentry] at hmap
      obtain ⟨x, -, rfl⟩ := Option.map_eq_some_iff.mp hmap.symm
      have hx : x = b.serialState n l := by
        rw [← hfinal]
        simp [view, hclosest]
      refine ⟨k, inc, by rw [← hx]; exact hentry, fun i hi => ?_⟩
      by_cases hin : i < n
      · exact hhigher i hi hin
      · exact habove i (by omega)
  · exact fun i hi => (hbelow i hi).1

/-- Every transaction counts up slot 0 and returns what it has found there. -/
def counter : Block ℕ ℕ ℕ ℕ where
  tx _ := .read 0 fun x => .done [(0, x + 1)] x
  hash l := l + 7
  storage _ := 5

/-- Two workers are about to begin with two transactions. -/
def counterStart : Pexe Bool (Prog ℕ ℕ ℕ × ReadSet ℕ) ℕ ℕ ℕ :=
  ⟨.new 2, fun _ => none, .new [], fun _ => .polling⟩

/-- Two workers execute and validate a block of two transactions and leave. Both have read the slot
before one of them writes it, so the second transaction is aborted and executed once more. -/
def counterGone : Pexe Bool (Prog ℕ ℕ ℕ × ReadSet ℕ) ℕ ℕ ℕ :=
  [false, true, true, false, false, true, false, false, true, true, true, true, true, true, true,
    true, true, true, true, true, true, false, false, false, true].foldl
      (Pexe.advance counter.vm fun v job mem => some (counter.execute v mem job)) counterStart

lemma counter_gone : (Pexe.system Bool counter.vm 2 []).Reachable counterGone ∧
    ∀ w, counterGone.phase w = .gone := by
  have hstart : (Pexe.system Bool counter.vm 2 []).Reachable counterStart :=
    .init ⟨rfl, rfl, fun _ => rfl⟩
  constructor
  · apply hstart.foldl
    exact Pexe.advance_step fun _ _ _ _ h => (Option.some.inj h).symm
  · decide +kernel

/-- The slot holds 5 at first, the transactions answer 5 and 6, and it holds 7 in the end. -/
theorem serial_equivalence_counter :
    (Pexe.system Bool counter.vm 2 []).Reachable counterGone ∧ (∀ w, counterGone.phase w = .gone) ∧
      (∃ i inc, counterGone.mvMemory.IsHighest 7 i (.data inc 7)) ∧
      counterGone.executionResults 0 = some 5 ∧ counterGone.executionResults 1 = some 6 := by
  obtain ⟨hreach, hgone⟩ := counter_gone
  obtain ⟨hmemory, hresults⟩ := serial_equivalence (b := counter) (L := Set.univ)
    (fun _ _ _ _ h => Nat.add_right_cancel h) (fun _ _ => ⟨trivial, fun _ _ _ => trivial⟩)
    (by simp) hreach hgone
  refine ⟨hreach, hgone, ?_, hresults 0 (by decide), hresults 1 (by decide)⟩
  rcases hmemory 0 trivial with hhighest | ⟨-, -, hsame⟩
  · exact hhighest
  · exact absurd hsame (by decide)

end Runs

end Block

end Pevm
