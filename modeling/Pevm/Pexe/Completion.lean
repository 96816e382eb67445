import Pevm.Pexe.Serial
import Pevm.Pexe.Termination
import Pevm.VmDb.Origins

/-!
# A block comes to an end

A block of programs, whatever the workers do and in whatever order: a transaction is executed only
so often, no run goes on for ever in which every call changes something, and where nothing changes
any more all workers have left, with the results of the execution in index order.
-/
namespace Pevm
open Transition TransitionSystem

namespace Block
open VersionMap
variable {Loc κ ν ρ : Type} [DecidableEq κ] {b : Block Loc κ ν ρ} {mem : MvMemory κ ν} {j : ℕ}

/-- Whatever was read would be read from the same origin now, so the execution has no reason to be
aborted. -/
def Fresh (mem : MvMemory κ ν) (j : ℕ) (readSet : ReadSet κ) : Prop :=
  ∀ key origins, readSet.lookup key = some origins →
    ∃ origin, origins = [origin] ∧ mem.validateLocation j key [origin] = true

omit [DecidableEq κ] in
/-- A location has one valid origin. -/
lemma validOrigin_unique {key : κ} {origin origin' : ReadOrigin}
    (h : mem.validateLocation j key [origin] = true)
    (h' : mem.validateLocation j key [origin'] = true) : origin = origin' := by
  cases origin with
  | storage =>
    rw [MvMemory.validateLocation_storage] at h
    cases origin' with
    | storage => rfl
    | mvMemory v' =>
      obtain ⟨x, hx⟩ := MvMemory.validateLocation_mvMemory.mp h'
      simp [h] at hx
  | mvMemory v =>
    obtain ⟨x, hx⟩ := MvMemory.validateLocation_mvMemory.mp h
    cases origin' with
    | storage =>
      rw [MvMemory.validateLocation_storage] at h'
      simp [h'] at hx
    | mvMemory v' =>
      obtain ⟨x', hx'⟩ := MvMemory.validateLocation_mvMemory.mp h'
      rw [hx] at hx'
      obtain ⟨hidx, hinc, -⟩ : v.txIdx = v'.txIdx ∧ v.txIncarnation = v'.txIncarnation ∧ x = x' := by
        simpa using hx'
      cases v
      cases v'
      simp_all

lemma Fresh.insert {readSet : ReadSet κ} (h : Fresh mem j readSet) {key : κ} {origin : ReadOrigin}
    (hvalid : mem.validateLocation j key [origin] = true) :
    Fresh mem j (readSet.insert key [origin]) := by
  intro key' origins hlookup
  by_cases hkey : key' = key
  · subst hkey
    rw [AList.lookup_insert, Option.some.injEq] at hlookup
    exact ⟨origin, hlookup.symm, hvalid⟩
  · rw [AList.lookup_insert_ne hkey] at hlookup
    exact h key' origins hlookup

lemma Fresh.pushOrigin {readSet : ReadSet κ} (h : Fresh mem j readSet) {key : κ}
    {origin : ReadOrigin} (hvalid : mem.validateLocation j key [origin] = true) :
    pushOrigin ((readSet.lookup key).getD []) origin = some [origin] := by
  cases hlookup : readSet.lookup key with
  | none => rfl
  | some origins =>
    obtain ⟨origin', rfl, hvalid'⟩ := h key origins hlookup
    rw [validOrigin_unique hvalid' hvalid]
    simp [Pevm.pushOrigin]

/-- A read meets an estimate or goes on. -/
lemma readStorage_of_fresh (l : Loc) (next : ν → Prog Loc ν ρ) {readSet : ReadSet κ}
    (h : Fresh mem j readSet) :
    (∃ k, b.readStorage j mem l next readSet = .blocking k ∧
      mem.entry (b.hash l) k = some .estimate) ∨
    ∃ x readSet', b.readStorage j mem l next readSet = .running (next x, readSet') ∧
      Fresh mem j readSet' := by
  have hzero : (if 0 < j then mem.closestEntry (b.hash l) j else none) =
      mem.closestEntry (b.hash l) j := by
    split
    · rfl
    · rw [eq_comm, MvMemory.closestEntry_eq_none]
      omega
  unfold readStorage
  dsimp only
  rw [hzero]
  cases hclosest : mem.closestEntry (b.hash l) j with
  | none =>
    have hvalid := MvMemory.validateLocation_storage.mpr hclosest
    right
    rw [h.pushOrigin hvalid]
    exact ⟨b.storage l, _, rfl, h.insert hvalid⟩
  | some closest =>
    obtain ⟨k, e⟩ := closest
    cases e with
    | estimate => exact .inl ⟨k, rfl, (mem.closestEntry_eq_some.mp hclosest).2.1⟩
    | data inc x =>
      have hvalid : mem.validateLocation j (b.hash l) [.mvMemory ⟨k, inc⟩] = true :=
        MvMemory.validateLocation_mvMemory.mpr ⟨x, hclosest⟩
      right
      dsimp only
      rw [h.pushOrigin hvalid]
      exact ⟨x, _, rfl, h.insert hvalid⟩

/-- Recording a transaction leaves alone what it has read. -/
lemma Fresh.validateReadLocations {v : TxVersion} {readSet : ReadSet κ}
    (h : Fresh mem v.txIdx readSet) (writeSet : WriteSet κ ν) :
    (mem.record v readSet writeSet).2.validateReadLocations v.txIdx = true := by
  rw [MvMemory.validateReadLocations_iff, MvMemory.record_read]
  rintro ⟨key, origins⟩ he
  obtain ⟨origin, rfl, hvalid⟩ := h key origins (AList.mem_lookup_iff.mpr he)
  have hclosest : (mem.record v readSet writeSet).2.closestEntry key v.txIdx =
      mem.closestEntry key v.txIdx := by
    rw [MvMemory.closestEntry_eq, MvMemory.closestEntry_eq]
    apply closestBelow_congr
    intro i hi
    exact MvMemory.record_entry_of_ne _ (by omega) _ _ _
  cases origin with
  | storage => rwa [MvMemory.validateLocation_storage, hclosest, ← MvMemory.validateLocation_storage]
  | mvMemory u =>
    rwa [MvMemory.validateLocation_mvMemory, hclosest, ← MvMemory.validateLocation_mvMemory]

lemma Fresh.congr {mem' : MvMemory κ ν} {readSet : ReadSet κ} (h : Fresh mem j readSet)
    (hentries : ∀ l, ∀ i < j, mem'.entry l i = mem.entry l i) : Fresh mem' j readSet := by
  intro key origins hlookup
  obtain ⟨origin, rfl, hvalid⟩ := h key origins hlookup
  refine ⟨origin, rfl, ?_⟩
  have hclosest : mem'.closestEntry key j = mem.closestEntry key j := by
    rw [MvMemory.closestEntry_eq, MvMemory.closestEntry_eq]
    exact closestBelow_congr (hentries key)
  cases origin with
  | storage => rwa [MvMemory.validateLocation_storage, hclosest, ← MvMemory.validateLocation_storage]
  | mvMemory u =>
    rwa [MvMemory.validateLocation_mvMemory, hclosest, ← MvMemory.validateLocation_mvMemory]

/-- What the program has read would be read again, and what it can come to is in the set. -/
def OnCourse (L : Set Loc) (mem : MvMemory κ ν) (v : TxVersion)
    (job : Prog Loc ν ρ × ReadSet κ) : Prop :=
  Fresh mem v.txIdx job.2 ∧ job.1.Within L

theorem steers {L : Set Loc} {n : ℕ} (hwithin : ∀ i < n, (b.tx i).Within L) :
    b.vm.Steers n (b.hash '' L) (OnCourse L) where
  start mem v hv := by
    refine ⟨fun key origins hlookup => ?_, hwithin _ hv⟩
    simp [vm] at hlookup
  congr mem mem' v job hentries h := ⟨h.1.congr hentries, h.2⟩
  running mem v job job' h hnext := by
    obtain ⟨p, readSet⟩ := job
    cases p with
    | done writeSet result => cases hnext
    | read l next =>
      rcases readStorage_of_fresh (b := b) l next h.1 with ⟨k, hread, -⟩ | ⟨y, reads, hread, hfresh⟩
      · cases hnext.trans hread
      · cases hnext.trans hread
        refine ⟨⟨hfresh, h.2.2 _⟩, fun hstart => ?_⟩
        -- the read is in the read set
        obtain ⟨origin, x, readOrigins, hjob, -⟩ := readStorage_eq_running hread
        have hreads : readSet.insert (b.hash l) readOrigins = ∅ :=
          (Prod.ext_iff.mp hjob).2.symm.trans (Prod.ext_iff.mp hstart).2
        have hlookup := AList.lookup_insert readSet (a := b.hash l) (b := readOrigins)
        rw [hreads] at hlookup
        cases hlookup
  retry mem v job h hnext := by
    obtain ⟨p, readSet⟩ := job
    cases p with
    | done writeSet result => cases hnext
    | read l next =>
      rcases readStorage_of_fresh (b := b) l next h.1 with ⟨k, hread, -⟩ | ⟨y, reads, hread, -⟩
      · cases hnext.trans hread
      · cases hnext.trans hread
  blocking mem v job k h hnext := by
    obtain ⟨p, readSet⟩ := job
    cases p with
    | done writeSet result => cases hnext
    | read l next =>
      rcases readStorage_of_fresh (b := b) l next h.1 with
        ⟨k', hread, hestimate⟩ | ⟨y, reads, hread, -⟩
      · cases hnext.trans hread
        exact ⟨b.hash l, ⟨l, h.2.1, rfl⟩, hestimate⟩
      · cases hnext.trans hread
  finished mem v job readSet writeSet flags result h hnext := by
    obtain ⟨p, reads⟩ := job
    cases p with
    | done writes answer =>
      cases hnext
      exact h.1.validateReadLocations _
    | read l next => exact absurd hnext.symm readStorage_ne_finished

/-- A program goes on until it ends. -/
theorem proceeds (b : Block Loc κ ν ρ) : b.vm.Proceeds where
  total v job mem := ⟨_, rfl⟩
  ends v := by
    refine ⟨fun job => ?_⟩
    obtain ⟨p, readSet⟩ := job
    induction p generalizing readSet with
    | done writeSet result =>
      refine Acc.intro _ fun job' ⟨mem, hnext⟩ => ?_
      cases hnext
    | read l next ih =>
      refine Acc.intro _ fun job' ⟨mem, hnext⟩ => ?_
      obtain ⟨origin, x, readOrigins, rfl, -⟩ := readStorage_eq_running hnext.symm
      exact ih x _

section Runs
variable {W : Type} [DecidableEq W] [Nonempty W] [Fintype W] {L : Set Loc} {n : ℕ}
  {estimatedLocations : List (κ × List ℕ)} {σ : Pexe W (Prog Loc ν ρ × ReadSet κ) κ ν ρ}

omit [Nonempty W] [Fintype W] [DecidableEq W] in
lemma keepsUp (hest : ∀ e ∈ estimatedLocations, ∀ l ∈ L, b.hash l ≠ e.1) :
    b.vm.KeepsUp estimatedLocations (b.hash '' L) := by
  rintro v job mem readSet writeSet flags result - key ⟨l, hl, rfl⟩ hentry
  exact absurd (MvMemory.new_entry_of_ne (fun e he => hest e he l hl) v.txIdx) hentry

/-- However the workers take turns, a transaction is executed no more than so often. The programs
stay in `L`, and estimates that the block begins with lie off the locations in `L`, so that an
estimate which a program meets is that of an aborted execution. -/
theorem executions_le (hwithin : ∀ i < n, (b.tx i).Within L)
    (hest : ∀ e ∈ estimatedLocations, ∀ l ∈ L, b.hash l ≠ e.1)
    {steps : List (Pexe W (Prog Loc ν ρ × ReadSet κ) κ ν ρ ×
      Pexe W (Prog Loc ν ρ × ReadSet κ) κ ν ρ)}
    (h : (Pexe.system W b.vm n estimatedLocations).Run steps σ) (j : ℕ) :
    occurrences (Pexe.Starts b.vm j) steps ≤
      Fintype.card W * (Fintype.card W * 2 + 1) ^ j :=
  Pexe.starts_le (steers hwithin) (keepsUp hest) h j

/-- Each of two workers has taken one of two transactions. -/
theorem executions_le_counter :
    ∃ steps, ∃ σ : Pexe Bool (Prog ℕ ℕ ℕ × ReadSet ℕ) ℕ ℕ ℕ,
      (Pexe.system Bool counter.vm 2 []).Run steps σ ∧
      σ.phase false = .executing ⟨0, 0⟩ (counter.tx 0, ∅) ∧
      σ.phase true = .executing ⟨1, 0⟩ (counter.tx 1, ∅) ∧
      occurrences (Pexe.Starts counter.vm 1) steps ≤ 10 := by
  let start : Pexe Bool (Prog ℕ ℕ ℕ × ReadSet ℕ) ℕ ℕ ℕ :=
    ⟨.new 2, fun _ => none, .new [], fun _ => .polling⟩
  have hstart : (Pexe.system Bool counter.vm 2 []).Run [] start :=
    .init ⟨rfl, rfl, fun _ => rfl⟩
  have hfirst := hstart.step (.nextTask (w := false) rfl)
  have hsecond := hfirst.step (.nextTask (w := true) rfl)
  have hwithin : ∀ i < 2, (counter.tx i).Within Set.univ :=
    fun _ _ => ⟨trivial, fun _ _ _ => trivial⟩
  exact ⟨_, _, hsecond, rfl, rfl, executions_le hwithin (by simp) hsecond 1⟩

/-- No run goes on for ever in which every call changes something. Where no call changes anything
any more, the workers have left and the results are those of the execution in index order. The
locations in `L`, in which the programs stay, have different hashes, and estimates that the block
begins with lie off them. -/
theorem total_correctness [DecidableEq Loc] (hhash : Set.InjOn b.hash L)
    (hwithin : ∀ i < n, (b.tx i).Within L)
    (hest : ∀ e ∈ estimatedLocations, ∀ l ∈ L, b.hash l ≠ e.1)
    (h : (Pexe.system W b.vm n estimatedLocations).Reachable σ) :
    Acc (fun σ' σ => Pexe.Step b.vm σ σ' ∧ σ' ≠ σ) σ ∧
      ((∀ σ', Pexe.Step b.vm σ σ' → σ' = σ) →
        (∀ w, σ.phase w = .gone) ∧ ∀ i < n, σ.executionResults i = some (b.serialResult i)) := by
  refine ⟨Pexe.acc_of_reachable (steers hwithin) (keepsUp hest) (proceeds b) h, fun hstuck => ?_⟩
  have hgone := Pexe.gone_of_stuck (steers hwithin) (proceeds b) h hstuck
  obtain ⟨-, hresults⟩ := entries_of_gone hhash hwithin hest h hgone le_rfl
  exact ⟨hgone, fun i hi => (hresults i hi).1⟩

/-- Both workers have left, and the transactions have answered 5 and 6. -/
theorem total_correctness_counter :
    (Pexe.system Bool counter.vm 2 []).Reachable counterGone ∧
      Acc (fun σ' σ => Pexe.Step counter.vm σ σ' ∧ σ' ≠ σ) counterGone ∧
      (∀ σ', ¬ Pexe.Step counter.vm counterGone σ') ∧
      counterGone.executionResults 0 = some 5 ∧ counterGone.executionResults 1 = some 6 := by
  obtain ⟨hreach, hgone⟩ := counter_gone
  have hstuck : ∀ σ', ¬ Pexe.Step counter.vm counterGone σ' := by
    intro σ' hs
    have hphase : counterGone.phase = fun _ => .gone := funext hgone
    cases hs <;> simp_all only [reduceCtorEq]
  have hwithin : ∀ i < 2, (counter.tx i).Within Set.univ :=
    fun _ _ => ⟨trivial, fun _ _ _ => trivial⟩
  obtain ⟨hacc, hends⟩ := total_correctness (b := counter) (L := Set.univ)
    (fun _ _ _ _ h => Nat.add_right_cancel h) hwithin (by simp) hreach
  obtain ⟨-, hresults⟩ := hends fun σ' hs => absurd hs (hstuck σ')
  exact ⟨hreach, hacc, hstuck, hresults 0 (by decide), hresults 1 (by decide)⟩

end Runs

end Block

end Pevm
