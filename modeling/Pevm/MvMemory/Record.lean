import Pevm.MvMemory

/-!
# What a record does

`record` removes while it iterates and looks new writes up in the list that it extends. As long
as no list of written locations has duplicates, it does the same as replacing the writes of the
transaction at once.
-/
namespace Pevm.MvMemory
open VersionMap

variable {κ ν : Type}

section SwapRemove

/-- Removing by swapping makes no duplicates. -/
lemma swapRemove_nodup {write : List κ} {idx : ℕ} (h : idx < write.length) (hnodup : write.Nodup) :
    (swapRemove write idx).Nodup := by
  obtain ⟨init, last, rfl⟩ : ∃ init last, write = init ++ [last] :=
    ⟨_, _, (List.dropLast_append_getLast (List.ne_nil_of_length_pos (by omega))).symm⟩
  have hle : idx ≤ init.length := by
    rw [List.length_append, List.length_singleton] at h
    omega
  have hinit : init.Nodup := (List.nodup_append.mp hnodup).1
  have hlast : last ∉ init := by
    intro hmem
    exact (List.nodup_append.mp hnodup).2.2 last hmem last List.mem_cons_self rfl
  rw [swapRemove_concat init last hle]
  split_ifs
  · exact hinit.set hlast
  · exact hinit

end SwapRemove

variable [DecidableEq κ]

section Lists
variable (version : TxVersion) (writeSet : WriteSet κ ν)

lemma removeOld_nodup (j left idx : ℕ) (write : List κ)
    (data : κ → Option (ℕ → Option (MemoryEntry ν))) (hnodup : write.Nodup) :
    (removeOld writeSet j left idx write data).1.Nodup := by
  induction left generalizing idx write data with
  | zero => exact hnodup
  | succ left ih =>
    rw [removeOld]
    by_cases hlt : idx < write.length
    · rw [List.getElem?_eq_getElem hlt]
      dsimp only
      split_ifs
      · exact ih idx _ _ (swapRemove_nodup hlt hnodup)
      · exact ih (idx + 1) _ _ hnodup
    · rw [List.getElem?_eq_none (by omega)]
      exact hnodup

lemma writeNew_nodup (write : List κ) (data : κ → Option (ℕ → Option (MemoryEntry ν)))
    (wroteNew : Bool) (hnodup : write.Nodup) :
    (writeNew version writeSet write data wroteNew).1.Nodup := by
  induction writeSet generalizing write data wroteNew with
  | nil => exact hnodup
  | cons w writeSet ih =>
    obtain ⟨l, value⟩ := w
    rw [writeNew]
    split_ifs with hmem
    · exact ih _ _ _ hnodup
    · apply ih
      rw [List.nodup_append]
      refine ⟨hnodup, List.nodup_singleton l, fun a ha b hb heq => ?_⟩
      rw [heq, List.mem_singleton.mp hb] at ha
      exact hmem ha

end Lists

section Record
variable (mem : MvMemory κ ν) (version : TxVersion) (readSet : ReadSet κ)
  (writeSet : WriteSet κ ν)

/-- No list of written locations has duplicates, which `record` and the conversion to estimates
keep. -/
def WritesNodup : Prop := ∀ j, (mem.lastLocations j).write.Nodup

lemma new_writesNodup (estimatedLocations : List (κ × List ℕ)) :
    (new estimatedLocations : MvMemory κ ν).WritesNodup := fun _ => List.nodup_nil

variable {mem}

theorem WritesNodup.record (h : mem.WritesNodup) :
    (mem.record version readSet writeSet).2.WritesNodup := by
  intro j
  by_cases hj : j = version.txIdx
  · subst hj
    simp only [MvMemory.record, Function.update_self]
    exact writeNew_nodup _ _ _ _ _ (removeOld_nodup _ _ _ _ _ _ (h _))
  · rw [record_lastLocations_of_ne _ _ _ _ hj]
    exact h j

lemma WritesNodup.convertWritesToEstimates (h : mem.WritesNodup) (j : ℕ) :
    (mem.convertWritesToEstimates j).WritesNodup := h

variable (mem)

/-- The version's writes take the place of the last ones of its transaction, and nothing else
changes. -/
structure Records (mem' : MvMemory κ ν) (wroteNewLocation : Bool) : Prop where
  written : ∀ l value, MvMemory.written writeSet l = some value →
    mem'.entry l version.txIdx = some (.data version.txIncarnation value)
  removed : ∀ l ∈ (mem.lastLocations version.txIdx).write, (∀ w ∈ writeSet, w.1 ≠ l) →
    mem'.entry l version.txIdx = none
  kept : ∀ l j, (j = version.txIdx →
      l ∉ (mem.lastLocations version.txIdx).write ∧ ∀ w ∈ writeSet, w.1 ≠ l) →
    mem'.entry l j = mem.entry l j
  read : (mem'.lastLocations version.txIdx).read = readSet
  write : (mem'.lastLocations version.txIdx).write.Nodup ∧
    ∀ l, l ∈ (mem'.lastLocations version.txIdx).write ↔ ∃ w ∈ writeSet, w.1 = l
  others : ∀ j, j ≠ version.txIdx → mem'.lastLocations j = mem.lastLocations j
  flag : wroteNewLocation = true ↔
    ∃ w ∈ writeSet, w.1 ∉ (mem.lastLocations version.txIdx).write

/-- Where no list of written locations has duplicates, `record` does exactly its job: the entries,
the removals, the last locations, the frame and the answer. The lists of a new memory have no
duplicates, and `record` and the conversion keep it so. -/
theorem record_records (h : mem.WritesNodup) :
    mem.Records version readSet writeSet (mem.record version readSet writeSet).2
      (mem.record version readSet writeSet).1 := by
  constructor
  case written =>
    intro l value hvalue
    rw [record_entry, if_pos rfl, hvalue]
  case removed =>
    intro l hl hnot
    rw [record_entry, if_pos rfl, written_eq_none.mpr hnot]
    exact if_pos hl
  case kept =>
    intro l j hother
    by_cases hj : j = version.txIdx
    · obtain ⟨hl, hnot⟩ := hother hj
      rw [record_entry, if_pos hj, written_eq_none.mpr hnot]
      exact if_neg hl
    · exact record_entry_of_ne _ hj _ _ _
  case read => exact record_read ..
  case write =>
    refine ⟨h.record version readSet writeSet _, fun l => ?_⟩
    rw [record_write, written_ne_none]
  case others =>
    intro j hj
    exact record_lastLocations_of_ne _ _ _ _ hj
  case flag =>
    rw [record_wroteNew]
    constructor
    · intro ⟨l, hl, hnot⟩
      obtain ⟨w, hw, rfl⟩ := written_ne_none.mp hl
      exact ⟨w, hw, hnot⟩
    · intro ⟨w, hw, hnot⟩
      exact ⟨w.1, written_ne_none.mpr ⟨w, hw, rfl⟩, hnot⟩

/-- The second incarnation of transaction 3 leaves location 0 and writes location 1 twice. -/
theorem record_records_again :
    ((new [] : MvMemory ℕ ℕ).record ⟨3, 0⟩ ∅ [(0, 10), (1, 11)]).2.Records ⟨3, 1⟩ ∅
      [(1, 21), (2, 22), (1, 23)]
      (((new [] : MvMemory ℕ ℕ).record ⟨3, 0⟩ ∅ [(0, 10), (1, 11)]).2.record ⟨3, 1⟩ ∅
        [(1, 21), (2, 22), (1, 23)]).2
      (((new [] : MvMemory ℕ ℕ).record ⟨3, 0⟩ ∅ [(0, 10), (1, 11)]).2.record ⟨3, 1⟩ ∅
        [(1, 21), (2, 22), (1, 23)]).1 :=
  record_records _ _ _ _ ((new_writesNodup []).record _ _ _)

end Record

end Pevm.MvMemory
