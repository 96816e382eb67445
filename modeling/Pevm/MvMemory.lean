import Mathlib.Data.List.AList
import Pevm.Lib.VersionMap
import Pevm.Scheduler

/-!
# The multi-version memory

For every location the entries of the transactions that wrote to it, and for every
transaction the locations it read and wrote last. Locations are known by their hash.
-/
namespace Pevm
open VersionMap

/-- What a transaction has left at a location: a value with the incarnation that wrote it, or the
mark that a value is expected. -/
inductive MemoryEntry (ν : Type)
  | data (txIncarnation : ℕ) (value : ν)
  /-- The entry of an aborted incarnation; the next one is expected to write here again. -/
  | estimate
  deriving DecidableEq, Repr

/-- Where a value that was read came from: from a transaction below, at one of its incarnations, or
from the storage. -/
inductive ReadOrigin
  | mvMemory (version : TxVersion)
  | storage
  deriving DecidableEq, Repr

/-- For each location that was read the origins of its value, the closest one first. There are
several where lazy updates were added up. -/
abbrev ReadSet (κ : Type) := AList fun _ : κ => List ReadOrigin

/-- What an execution writes, in the order in which it was pushed. -/
abbrev WriteSet (κ ν : Type) := List (κ × ν)

/-- A read set grows by an origin; another origin than before forces a re-execution. -/
def pushOrigin (readOrigins : List ReadOrigin) (origin : ReadOrigin) : Option (List ReadOrigin) :=
  match readOrigins.getLast? with
  | some prevOrigin => if prevOrigin ≠ origin then none else some readOrigins
  | none => some (readOrigins ++ [origin])

/-- What the last incarnation of a transaction that was recorded has read, and where it wrote. -/
structure LastLocations (κ : Type) where
  read : ReadSet κ
  write : List κ

/-- The multi-version memory: for each location the entries by transaction, if there is a map at
all, and for each transaction its last locations. -/
structure MvMemory (κ ν : Type) where
  data : κ → Option (ℕ → Option (MemoryEntry ν))
  lastLocations : ℕ → LastLocations κ

namespace MvMemory
variable {κ ν : Type}

/-- `Vec::swap_remove`: the last element takes the place of the removed one, so the order of the
rest may change. -/
def swapRemove (locations : List κ) (idx : ℕ) : List κ :=
  match locations.getLast? with
  | some last => (locations.set idx last).dropLast
  | none => []

section SwapRemove

lemma swapRemove_concat (init : List κ) (last : κ) {idx : ℕ} (h : idx ≤ init.length) :
    swapRemove (init ++ [last]) idx = if idx < init.length then init.set idx last else init := by
  unfold swapRemove
  rw [List.getLast?_concat]
  dsimp only
  split
  · rename_i hlt
    rw [List.set_append_left _ _ hlt, List.dropLast_concat]
  · have heq : idx = init.length := by omega
    rw [heq, List.set_append_right _ _ (le_refl _)]
    simp

lemma swapRemove_spec {write : List κ} {idx : ℕ} (h : idx < write.length) :
    (swapRemove write idx).length = write.length - 1 ∧
      (swapRemove write idx).take idx = write.take idx ∧
      (∀ l ∈ swapRemove write idx, l ∈ write) ∧
      ∀ l ∈ write, l ≠ write[idx] → l ∈ swapRemove write idx := by
  obtain ⟨init, last, rfl⟩ : ∃ init last, write = init ++ [last] :=
    ⟨_, _, (List.dropLast_append_getLast (List.ne_nil_of_length_pos (by omega))).symm⟩
  have hle : idx ≤ init.length := by simpa using Nat.lt_succ_iff.mp (by simpa using h)
  rw [swapRemove_concat init last hle]
  by_cases hlt : idx < init.length
  · rw [if_pos hlt]
    refine ⟨by simp, by simp [List.take_append_of_le_length hle, List.take_set_of_le], ?_, ?_⟩
    · intro l hl
      rcases List.mem_or_eq_of_mem_set hl with hl | rfl <;> simp [*]
    · intro l hl hne
      rw [List.getElem_append_left hlt] at hne
      rcases List.mem_append.mp hl with hl | hl
      · obtain ⟨k, hk⟩ := List.mem_iff_getElem?.mp hl
        have hki : idx ≠ k := by
          rintro rfl
          rw [List.getElem?_eq_getElem hlt, Option.some.injEq] at hk
          exact hne hk.symm
        apply List.mem_iff_getElem?.mpr
        exact ⟨k, by rw [List.getElem?_set_ne hki, hk]⟩
      · rw [List.mem_singleton.mp hl]
        exact List.mem_set hlt last
  · rw [if_neg hlt]
    have heq : idx = init.length := by omega
    subst heq
    refine ⟨by simp, by simp, fun l hl => by simp [hl], ?_⟩
    intro l hl hne
    have hlast : l ≠ last := by simpa using hne
    simpa [hlast] using hl

end SwapRemove

/-- Walk down the entries of a location beside the origins its value had when it was read. -/
def originsMatch (m : ℕ → Option (MemoryEntry ν)) : ℕ → List ReadOrigin → Bool
  | _, [] => true
  | bound, .mvMemory prior :: origins =>
    match closestBelow m bound with
    | some (closestIdx, .data txIncarnation _) =>
      closestIdx = prior.txIdx && prior.txIncarnation = txIncarnation &&
        originsMatch m closestIdx origins
    | _ => false
  | bound, .storage :: origins =>
    match closestBelow m bound with
    | some _ => false
    | none => originsMatch m bound origins

/-- One location of a read set: the origins that were recorded are those that a read would find now.
-/
def validateLocation (mem : MvMemory κ ν) (j : ℕ) (l : κ) (priorOrigins : List ReadOrigin) : Bool :=
  match mem.data l with
  | some m => originsMatch m j priorOrigins
  | none => priorOrigins = [.storage]

/-- `MvMemory::validate_read_locations`: every location in the last read set of a transaction still
has the origins that were recorded for it. -/
def validateReadLocations (mem : MvMemory κ ν) (j : ℕ) : Bool :=
  (mem.lastLocations j).read.entries.all fun e => mem.validateLocation j e.1 e.2

section Matching
variable {m m' : ℕ → Option (MemoryEntry ν)} {bound : ℕ} {origins : List ReadOrigin}

lemma originsMatch_congr (h : ∀ i < bound, m i = m' i) :
    originsMatch m bound origins = originsMatch m' bound origins := by
  induction origins generalizing bound with
  | nil => rfl
  | cons origin origins ih =>
    cases origin with
    | mvMemory prior =>
      rw [originsMatch, originsMatch, ← closestBelow_congr h]
      cases hc : closestBelow m bound with
      | none => rfl
      | some e =>
        obtain ⟨k, e⟩ := e
        have hk := (closestBelow_eq_some.mp hc).1
        cases e with
        | data inc value =>
          dsimp only
          rw [ih fun i hi => h i (by omega)]
        | estimate => rfl
    | storage =>
      rw [originsMatch, originsMatch, ← closestBelow_congr h]
      cases closestBelow m bound with
      | none => exact ih h
      | some e => rfl

/-- A walk that succeeds never meets an estimate, so the estimate may become anything. -/
theorem originsMatch_update {i : ℕ} (h : originsMatch m bound origins = true)
    (hi : m i = some .estimate) (x : Option (MemoryEntry ν)) :
    originsMatch (Function.update m i x) bound origins = true := by
  induction origins generalizing bound with
  | nil => rfl
  | cons origin origins ih =>
    cases origin with
    | mvMemory prior =>
      rw [originsMatch] at h ⊢
      cases hc : closestBelow m bound with
      | none => simp [hc] at h
      | some e =>
        obtain ⟨k, e⟩ := e
        obtain ⟨hlt, hk, hnone⟩ := closestBelow_eq_some.mp hc
        cases e with
        | estimate => simp [hc] at h
        | data inc value =>
          have hplace : i < k ∨ bound ≤ i := by
            by_contra hbetween
            by_cases hik : i = k
            · rw [hik, hk] at hi
              cases hi
            · rw [hnone i (by omega) (by omega)] at hi
              cases hi
          rw [closestBelow_update_of_lt hc hplace]
          rw [hc] at h
          simp only [Bool.and_eq_true] at h ⊢
          exact ⟨h.1, ih h.2⟩
    | storage =>
      rw [originsMatch] at h ⊢
      cases hc : closestBelow m bound with
      | some e => simp [hc] at h
      | none =>
        have hnone := closestBelow_eq_none.mp hc
        have hplace : bound ≤ i := by
          by_contra hlt
          rw [hnone i (by omega)] at hi
          cases hi
        have hsame : ∀ k < bound, m k = Function.update m i x k := by
          intro k hk
          rw [Function.update_of_ne (by omega)]
        rw [← closestBelow_congr hsame, hc]
        rw [hc] at h
        exact ih h

end Matching

section Entry
variable (mem : MvMemory κ ν)

/-- The entry of transaction `j` at a location, whether or not the location has a map. -/
def entry (l : κ) (j : ℕ) : Option (MemoryEntry ν) := (mem.data l).bind fun m => m j

lemma entry_of_data {l : κ} {m : ℕ → Option (MemoryEntry ν)} (h : mem.data l = some m) (j : ℕ) :
    mem.entry l j = m j := by
  simp [entry, h]

lemma data_of_entry {l : κ} {j : ℕ} {e : MemoryEntry ν} (h : mem.entry l j = some e) :
    ∃ m, mem.data l = some m ∧ m j = some e := by
  simpa [entry, Option.bind_eq_some_iff] using h

/-- The entry that a reader at `j` meets first, going down from the transaction below it. -/
def closestEntry (l : κ) (j : ℕ) : Option (ℕ × MemoryEntry ν) :=
  (mem.data l).bind fun m => closestBelow m j

lemma closestEntry_eq (l : κ) (j : ℕ) : mem.closestEntry l j = closestBelow (mem.entry l) j := by
  unfold closestEntry entry
  cases mem.data l with
  | none =>
    symm
    simp [closestBelow_eq_none]
  | some m => rfl

lemma closestEntry_eq_some {l : κ} {j k : ℕ} {e : MemoryEntry ν} :
    mem.closestEntry l j = some (k, e) ↔
      k < j ∧ mem.entry l k = some e ∧ ∀ i, k < i → i < j → mem.entry l i = none := by
  unfold closestEntry entry
  cases mem.data l with
  | none => simp
  | some m => exact closestBelow_eq_some

lemma closestEntry_eq_none {l : κ} {j : ℕ} :
    mem.closestEntry l j = none ↔ ∀ i < j, mem.entry l i = none := by
  unfold closestEntry entry
  cases mem.data l with
  | none => simp
  | some m => exact closestBelow_eq_none

end Entry

lemma validateReadLocations_iff {mem : MvMemory κ ν} {j : ℕ} :
    mem.validateReadLocations j = true ↔
      ∀ e ∈ (mem.lastLocations j).read.entries, mem.validateLocation j e.1 e.2 = true := by
  simp [validateReadLocations]

variable [DecidableEq κ]

/-- The estimates of the transactions that are expected to write to one location, put there before
the block. -/
def insertEstimates (data : κ → Option (ℕ → Option (MemoryEntry ν)))
    (estimated : κ × List ℕ) : κ → Option (ℕ → Option (MemoryEntry ν)) :=
  Function.update data estimated.1
    (some fun j => if j ∈ estimated.2 then some .estimate else none)

/-- `MvMemory::new`: estimates where writes are expected, and nothing read or written yet. -/
def new (estimatedLocations : List (κ × List ℕ)) : MvMemory κ ν where
  data := estimatedLocations.foldl insertEstimates fun _ => none
  lastLocations _ := ⟨∅, []⟩

lemma insertEstimates_foldl (estimatedLocations : List (κ × List ℕ))
    {data : κ → Option (ℕ → Option (MemoryEntry ν))}
    (h : ∀ l m, data l = some m → ∀ j e, m j = some e → e = .estimate)
    (l : κ) (m : ℕ → Option (MemoryEntry ν))
    (hm : estimatedLocations.foldl insertEstimates data l = some m) :
    ∀ j e, m j = some e → e = .estimate := by
  induction estimatedLocations generalizing data with
  | nil => exact h l m hm
  | cons estimated estimatedLocations ih =>
    apply ih _ hm
    intro l m hm j e he
    by_cases hl : l = estimated.1
    · subst hl
      rw [insertEstimates, Function.update_self] at hm
      obtain rfl := Option.some.inj hm
      dsimp only at he
      split_ifs at he
      exact (Option.some.inj he).symm
    · rw [insertEstimates, Function.update_of_ne hl] at hm
      exact h l m hm j e he

/-- Before the first execution there are only estimates. -/
lemma new_entry {estimatedLocations : List (κ × List ℕ)} {l : κ} {j : ℕ} {e : MemoryEntry ν}
    (h : (new estimatedLocations).entry l j = some e) : e = .estimate := by
  obtain ⟨m, hm, he⟩ := data_of_entry _ h
  exact insertEstimates_foldl estimatedLocations (by simp) l m hm j e he

lemma insertEstimates_foldl_of_ne (estimatedLocations : List (κ × List ℕ))
    (data : κ → Option (ℕ → Option (MemoryEntry ν))) {l : κ}
    (h : ∀ e ∈ estimatedLocations, l ≠ e.1) :
    estimatedLocations.foldl insertEstimates data l = data l := by
  induction estimatedLocations generalizing data with
  | nil => rfl
  | cons estimated estimatedLocations ih =>
    rw [List.foldl_cons, ih _ fun e he => h e (List.mem_cons_of_mem _ he), insertEstimates,
      Function.update_of_ne (h estimated List.mem_cons_self)]

lemma new_entry_of_ne {estimatedLocations : List (κ × List ℕ)} {l : κ}
    (h : ∀ e ∈ estimatedLocations, l ≠ e.1) (j : ℕ) :
    (new estimatedLocations : MvMemory κ ν).entry l j = none := by
  simp [entry, new, insertEstimates_foldl_of_ne estimatedLocations _ h]

lemma insertEstimates_foldl_of_mem {estimatedLocations : List (κ × List ℕ)}
    (hnodup : (estimatedLocations.map Prod.fst).Nodup)
    (data : κ → Option (ℕ → Option (MemoryEntry ν))) {e : κ × List ℕ}
    (h : e ∈ estimatedLocations) :
    estimatedLocations.foldl insertEstimates data e.1 =
      some fun j => if j ∈ e.2 then some .estimate else none := by
  induction estimatedLocations generalizing data with
  | nil => simp at h
  | cons estimated estimatedLocations ih =>
    rw [List.map_cons, List.nodup_cons] at hnodup
    rw [List.foldl_cons]
    rcases List.mem_cons.mp h with rfl | h
    · rw [insertEstimates_foldl_of_ne, insertEstimates, Function.update_self]
      intro e' he' heq
      exact hnodup.1 (heq ▸ List.mem_map_of_mem he')
    · exact ih hnodup.2 _ h

lemma new_entry_estimate {estimatedLocations : List (κ × List ℕ)}
    (hnodup : (estimatedLocations.map Prod.fst).Nodup) {l : κ} {j : ℕ} :
    (new estimatedLocations : MvMemory κ ν).entry l j = some .estimate ↔
      ∃ e ∈ estimatedLocations, e.1 = l ∧ j ∈ e.2 := by
  constructor
  · intro h
    by_contra hnone
    have hkey : ∃ e ∈ estimatedLocations, l = e.1 := by
      by_contra hkey
      rw [new_entry_of_ne fun e he heq => hkey ⟨e, he, heq⟩] at h
      cases h
    obtain ⟨e, he, rfl⟩ := hkey
    have hj : j ∉ e.2 := fun hj => hnone ⟨e, he, rfl, hj⟩
    simp [entry, new, insertEstimates_foldl_of_mem hnodup _ he, hj] at h
  · rintro ⟨e, he, rfl, hj⟩
    simp [entry, new, insertEstimates_foldl_of_mem hnodup _ he, hj]

/-- Change the entry of `j` at a location that has a map; a location without one stays without. -/
def modifyEntry (data : κ → Option (ℕ → Option (MemoryEntry ν))) (l : κ) (j : ℕ)
    (e : Option (MemoryEntry ν)) : κ → Option (ℕ → Option (MemoryEntry ν)) :=
  Function.update data l ((data l).map fun m => Function.update m j e)

/-- Set the entry of `j`, at a location that may not have a map yet. -/
def insertEntry (data : κ → Option (ℕ → Option (MemoryEntry ν))) (l : κ) (j : ℕ)
    (e : MemoryEntry ν) : κ → Option (ℕ → Option (MemoryEntry ν)) :=
  Function.update data l
    (some (Function.update ((data l).getD fun _ => none) j (some e)))

/-- The first loop of `record` drops the locations that are not written any more. The first
argument counts the locations it has not looked at. -/
def removeOld (writeSet : WriteSet κ ν) (j : ℕ) : ℕ → ℕ → List κ →
    (κ → Option (ℕ → Option (MemoryEntry ν))) →
    List κ × (κ → Option (ℕ → Option (MemoryEntry ν)))
  | 0, _, write, data => (write, data)
  | left + 1, idx, write, data =>
    match write[idx]? with
    | none => (write, data)
    | some prevLocation =>
      if writeSet.all fun w => w.1 ≠ prevLocation then
        removeOld writeSet j left idx (swapRemove write idx) (modifyEntry data prevLocation j none)
      else removeOld writeSet j left (idx + 1) write data

/-- The second loop of `record`: write the entries, and note the new locations. -/
def writeNew (version : TxVersion) : WriteSet κ ν → List κ →
    (κ → Option (ℕ → Option (MemoryEntry ν))) → Bool →
    List κ × (κ → Option (ℕ → Option (MemoryEntry ν))) × Bool
  | [], write, data, wroteNewLocation => (write, data, wroteNewLocation)
  | (l, value) :: writeSet, write, data, wroteNewLocation =>
    let data := insertEntry data l version.txIdx (.data version.txIncarnation value)
    if l ∈ write then writeNew version writeSet write data wroteNewLocation
    else writeNew version writeSet (write ++ [l]) data true

/-- `MvMemory::record`: the entries where only the last incarnation wrote are removed, then the
write set is put in. The result says whether a location is new to the transaction. -/
def record (mem : MvMemory κ ν) (version : TxVersion) (readSet : ReadSet κ)
    (writeSet : WriteSet κ ν) : Bool × MvMemory κ ν :=
  let j := version.txIdx
  let write := (mem.lastLocations j).write
  let (write, data) := removeOld writeSet j write.length 0 write mem.data
  let (write, data, wroteNewLocation) := writeNew version writeSet write data false
  (wroteNewLocation,
    { data, lastLocations := Function.update mem.lastLocations j ⟨readSet, write⟩ })

/-- `MvMemory::convert_writes_to_estimates`: every value that the aborted incarnation wrote becomes
an estimate. -/
def convertWritesToEstimates (mem : MvMemory κ ν) (j : ℕ) : MvMemory κ ν :=
  { mem with
    data := (mem.lastLocations j).write.foldl
      (fun data l => modifyEntry data l j (some .estimate)) mem.data }

section Entries
variable {data : κ → Option (ℕ → Option (MemoryEntry ν))} {l l' : κ} {j : ℕ}

@[simp] lemma modifyEntry_self (e : Option (MemoryEntry ν)) :
    modifyEntry data l j e l = (data l).map fun m => Function.update m j e := by
  simp [modifyEntry]

lemma modifyEntry_of_ne (e : Option (MemoryEntry ν)) (h : l' ≠ l) :
    modifyEntry data l j e l' = data l' := by
  simp [modifyEntry, h]

@[simp] lemma insertEntry_self (e : MemoryEntry ν) :
    insertEntry data l j e l =
      some (Function.update ((data l).getD fun _ => none) j (some e)) := by
  simp [insertEntry]

lemma insertEntry_of_ne (e : MemoryEntry ν) (h : l' ≠ l) :
    insertEntry data l j e l' = data l' := by
  simp [insertEntry, h]

end Entries

/-- The value a write set leaves at a location: the last one written there. -/
def written (writeSet : WriteSet κ ν) (l : κ) : Option ν :=
  writeSet.foldl (fun acc w => if w.1 = l then some w.2 else acc) none

lemma foldl_written (writeSet : WriteSet κ ν) (l : κ) (acc : Option ν) :
    writeSet.foldl (fun acc w => if w.1 = l then some w.2 else acc) acc =
      (written writeSet l).or acc := by
  induction writeSet generalizing acc with
  | nil => simp [written]
  | cons w writeSet ih =>
    rw [written, List.foldl_cons, List.foldl_cons, ih, ih]
    by_cases h : w.1 = l
    · simp [h]
    · simp [h]

@[simp] lemma written_nil (l : κ) : written ([] : WriteSet κ ν) l = none := rfl

lemma written_cons (w : κ × ν) (writeSet : WriteSet κ ν) (l : κ) :
    written (w :: writeSet) l = (written writeSet l).or (if w.1 = l then some w.2 else none) := by
  rw [← foldl_written, written, List.foldl_cons]

lemma written_eq_none {writeSet : WriteSet κ ν} {l : κ} :
    written writeSet l = none ↔ ∀ w ∈ writeSet, w.1 ≠ l := by
  induction writeSet with
  | nil => simp
  | cons w writeSet ih =>
    rw [written_cons]
    by_cases h : w.1 = l
    · simp [h]
    · simp only [h, if_false, Option.or_none, ih, List.forall_mem_cons, ne_eq, not_false_eq_true,
        true_and]

lemma written_ne_none {writeSet : WriteSet κ ν} {l : κ} :
    written writeSet l ≠ none ↔ ∃ w ∈ writeSet, w.1 = l := by
  rw [Ne, written_eq_none]
  push Not
  rfl

lemma mem_of_written {writeSet : WriteSet κ ν} {l : κ} {value : ν}
    (h : written writeSet l = some value) : (l, value) ∈ writeSet := by
  induction writeSet with
  | nil => simp at h
  | cons w writeSet ih =>
    rw [written_cons] at h
    rcases Option.or_eq_some_iff.mp h with h | ⟨-, h⟩
    · exact List.mem_cons_of_mem _ (ih h)
    · split_ifs at h with heq
      rw [← heq, ← Option.some.inj h]
      exact List.mem_cons_self

/-- Only the writes to a location count there. -/
lemma written_filter (writeSet : WriteSet κ ν) (l : κ) :
    written (writeSet.filter fun w => w.1 = l) l = written writeSet l := by
  induction writeSet with
  | nil => rfl
  | cons w writeSet ih =>
    by_cases h : w.1 = l
    · rw [List.filter_cons_of_pos (by simpa using h), written_cons, written_cons, ih]
    · rw [List.filter_cons_of_neg (by simpa using h), written_cons, ih, if_neg h, Option.or_none]

/-- Later writes go over earlier ones. -/
lemma written_append (writeSet writeSet' : WriteSet κ ν) (l : κ) :
    written (writeSet ++ writeSet') l = (written writeSet' l).or (written writeSet l) := by
  induction writeSet with
  | nil => simp
  | cons w writeSet ih => rw [List.cons_append, written_cons, written_cons, ih, Option.or_assoc]

section Record

lemma removeOld_spec (writeSet : WriteSet κ ν) (j left idx : ℕ) (write : List κ)
    (data : κ → Option (ℕ → Option (MemoryEntry ν))) (hleft : write.length = idx + left)
    (hkept : ∀ l ∈ write.take idx, written writeSet l ≠ none) (l : κ) :
    (l ∈ (removeOld writeSet j left idx write data).1 ↔
      l ∈ write ∧ written writeSet l ≠ none) ∧
    (removeOld writeSet j left idx write data).2 l =
      if l ∈ write ∧ written writeSet l = none then
        (data l).map fun m => Function.update m j none
      else data l := by
  induction left generalizing idx write data with
  | zero =>
    have hall : ∀ l ∈ write, written writeSet l ≠ none := by
      intro l hl
      exact hkept l (by rwa [List.take_of_length_le (by omega)])
    rw [removeOld]
    constructor
    · exact ⟨fun hl => ⟨hl, hall l hl⟩, And.left⟩
    · rw [if_neg fun h => hall l h.1 h.2]
  | succ left ih =>
    have hlt : idx < write.length := by omega
    rw [removeOld, List.getElem?_eq_getElem hlt]
    dsimp only
    by_cases hall : (writeSet.all fun w => w.1 ≠ write[idx]) = true
    · rw [if_pos hall]
      have hnone : written writeSet write[idx] = none := by
        apply written_eq_none.mpr
        simpa using hall
      obtain ⟨hlength, htake, hsub, hsup⟩ := swapRemove_spec hlt
      obtain ⟨hmem, hdata⟩ := ih idx (swapRemove write idx)
        (modifyEntry data write[idx] j none) (by omega) (by rwa [htake])
      constructor
      · rw [hmem]
        constructor
        · exact fun h => ⟨hsub l h.1, h.2⟩
        · rintro ⟨hl, hsome⟩
          refine ⟨hsup l hl ?_, hsome⟩
          rintro rfl
          exact hsome hnone
      · rw [hdata]
        by_cases hl : l = write[idx]
        · subst hl
          have hpos : write[idx] ∈ write ∧ written writeSet write[idx] = none :=
            ⟨List.getElem_mem hlt, hnone⟩
          rw [modifyEntry_self, if_pos hpos]
          split
          · cases data write[idx] <;> simp
          · rfl
        · rw [modifyEntry_of_ne none hl]
          have hiff : l ∈ swapRemove write idx ↔ l ∈ write := ⟨hsub l, fun h => hsup l h hl⟩
          simp only [hiff]
    · rw [if_neg hall]
      have hsome : written writeSet write[idx] ≠ none := by
        intro hnone
        apply hall
        simpa using written_eq_none.mp hnone
      apply ih (idx + 1) write data (by omega)
      intro l' hl'
      rw [List.take_add_one, List.getElem?_eq_getElem hlt] at hl'
      rcases List.mem_append.mp hl' with hl' | hl'
      · exact hkept l' hl'
      · have heq : l' = write[idx] := by simpa using hl'
        rw [heq]
        exact hsome

lemma written_cons_ne_none {l₀ l : κ} {value : ν} {writeSet : WriteSet κ ν} :
    written ((l₀, value) :: writeSet) l ≠ none ↔ written writeSet l ≠ none ∨ l₀ = l := by
  rw [written_cons]
  by_cases h : l₀ = l
  · simp [h]
  · simp [h]

lemma writeNew_write (version : TxVersion) (writeSet : WriteSet κ ν) (write : List κ)
    (data : κ → Option (ℕ → Option (MemoryEntry ν))) (wroteNew : Bool) (l : κ) :
    l ∈ (writeNew version writeSet write data wroteNew).1 ↔
      l ∈ write ∨ written writeSet l ≠ none := by
  induction writeSet generalizing write data wroteNew with
  | nil => simp [writeNew]
  | cons w writeSet ih =>
    obtain ⟨l₀, value⟩ := w
    rw [writeNew, written_cons_ne_none]
    split
    · rename_i hmem
      rw [ih]
      constructor
      · rintro (h | h)
        · exact .inl h
        · exact .inr (.inl h)
      · rintro (h | h | rfl)
        · exact .inl h
        · exact .inr h
        · exact .inl hmem
    · rw [ih, List.mem_append, List.mem_singleton]
      constructor
      · rintro ((h | rfl) | h)
        · exact .inl h
        · exact .inr (.inr rfl)
        · exact .inr (.inl h)
      · rintro (h | h | rfl)
        · exact .inl (.inl h)
        · exact .inr h
        · exact .inl (.inr rfl)

lemma writeNew_data (version : TxVersion) (writeSet : WriteSet κ ν) (write : List κ)
    (data : κ → Option (ℕ → Option (MemoryEntry ν))) (wroteNew : Bool) (l : κ) :
    (writeNew version writeSet write data wroteNew).2.1 l =
      match written writeSet l with
      | some value => some (Function.update ((data l).getD fun _ => none) version.txIdx
          (some (.data version.txIncarnation value)))
      | none => data l := by
  induction writeSet generalizing write data wroteNew with
  | nil => simp [writeNew]
  | cons w writeSet ih =>
    obtain ⟨l₀, value⟩ := w
    have hstep : (writeNew version ((l₀, value) :: writeSet) write data wroteNew).2.1 l =
        match written writeSet l with
        | some value' => some (Function.update
            ((insertEntry data l₀ version.txIdx (.data version.txIncarnation value) l).getD
              fun _ => none) version.txIdx (some (.data version.txIncarnation value')))
        | none => insertEntry data l₀ version.txIdx (.data version.txIncarnation value) l := by
      rw [writeNew]
      split
      · exact ih ..
      · exact ih ..
    rw [hstep, written_cons]
    by_cases h : l₀ = l
    · subst h
      cases written writeSet l₀ <;> simp
    · rw [insertEntry_of_ne _ (Ne.symm h)]
      cases written writeSet l <;> simp [h]

lemma writeNew_wroteNew (version : TxVersion) (writeSet : WriteSet κ ν) (write : List κ)
    (data : κ → Option (ℕ → Option (MemoryEntry ν))) (wroteNew : Bool) :
    (writeNew version writeSet write data wroteNew).2.2 = true ↔
      wroteNew = true ∨ ∃ l, written writeSet l ≠ none ∧ l ∉ write := by
  induction writeSet generalizing write data wroteNew with
  | nil => simp [writeNew]
  | cons w writeSet ih =>
    obtain ⟨l₀, value⟩ := w
    simp only [writeNew, written_cons_ne_none]
    split
    · rename_i hmem
      rw [ih]
      refine or_congr_right (exists_congr fun l => ?_)
      constructor
      · exact fun h => ⟨.inl h.1, h.2⟩
      · rintro ⟨h | rfl, hnot⟩
        · exact ⟨h, hnot⟩
        · exact absurd hmem hnot
    · rename_i hmem
      rw [ih]
      exact iff_of_true (.inl rfl) (.inr ⟨l₀, .inr rfl, hmem⟩)

variable (mem : MvMemory κ ν) (version : TxVersion) (readSet : ReadSet κ)
  (writeSet : WriteSet κ ν)

/-- The first loop of `record` keeps the locations that are written again. -/
lemma removeOld_lastLocations (l : κ) :
    (l ∈ (removeOld writeSet version.txIdx (mem.lastLocations version.txIdx).write.length 0
        (mem.lastLocations version.txIdx).write mem.data).1 ↔
      l ∈ (mem.lastLocations version.txIdx).write ∧ written writeSet l ≠ none) ∧
    (removeOld writeSet version.txIdx (mem.lastLocations version.txIdx).write.length 0
        (mem.lastLocations version.txIdx).write mem.data).2 l =
      if l ∈ (mem.lastLocations version.txIdx).write ∧ written writeSet l = none then
        (mem.data l).map fun m => Function.update m version.txIdx none
      else mem.data l :=
  removeOld_spec writeSet version.txIdx _ 0 _ mem.data (by omega) (by simp) l

/-- What `record` leaves at a location. -/
theorem record_data (l : κ) :
    (mem.record version readSet writeSet).2.data l =
      match written writeSet l with
      | some value => some (Function.update ((mem.data l).getD fun _ => none) version.txIdx
          (some (.data version.txIncarnation value)))
      | none =>
        if l ∈ (mem.lastLocations version.txIdx).write then
          (mem.data l).map fun m => Function.update m version.txIdx none
        else mem.data l := by
  have hold := (removeOld_lastLocations mem version writeSet l).2
  refine (writeNew_data version writeSet _ _ false l).trans ?_
  cases h : written writeSet l with
  | some value => simp [hold, h]
  | none => simp [hold, h]

/-- A location that has a map keeps one. -/
lemma record_isSome {l : κ} (h : (mem.data l).isSome = true) :
    ((mem.record version readSet writeSet).2.data l).isSome = true := by
  rw [record_data]
  split
  · rfl
  · split_ifs
    · rwa [Option.isSome_map]
    · exact h

/-- `record` reports a new location exactly where the write set has one that the last incarnation
did not write. -/
theorem record_wroteNew :
    (mem.record version readSet writeSet).1 = true ↔
      ∃ l, written writeSet l ≠ none ∧ l ∉ (mem.lastLocations version.txIdx).write := by
  refine (writeNew_wroteNew version writeSet _ _ false).trans ?_
  simp only [Bool.false_eq_true, false_or]
  refine exists_congr fun l => and_congr_right fun hw => ?_
  rw [(removeOld_lastLocations mem version writeSet l).1]
  simp [hw]

/-- After `record` the last locations are those of the write set, whatever was there before. -/
theorem record_write (l : κ) :
    l ∈ ((mem.record version readSet writeSet).2.lastLocations version.txIdx).write ↔
      written writeSet l ≠ none := by
  simp only [record, Function.update_self]
  rw [writeNew_write, (removeOld_lastLocations mem version writeSet l).1]
  tauto

/-- After `record` the read set is the one that was handed over. -/
@[simp] theorem record_read :
    ((mem.record version readSet writeSet).2.lastLocations version.txIdx).read = readSet := by
  simp [record]

/-- `record` leaves the last locations of other transactions as they are. -/
theorem record_lastLocations_of_ne {i : ℕ} (h : i ≠ version.txIdx) :
    (mem.record version readSet writeSet).2.lastLocations i = mem.lastLocations i := by
  simp [record, h]

end Record

section Estimates
variable (mem : MvMemory κ ν) (j : ℕ)

/-- What `convertWritesToEstimates` leaves at a location. -/
theorem convert_data (l : κ) :
    (mem.convertWritesToEstimates j).data l =
      if l ∈ (mem.lastLocations j).write then
        (mem.data l).map fun m => Function.update m j (some .estimate)
      else mem.data l := by
  unfold convertWritesToEstimates
  dsimp only
  generalize (mem.lastLocations j).write = write
  generalize mem.data = data
  induction write generalizing data with
  | nil => simp
  | cons l₀ write ih =>
    rw [List.foldl_cons, ih]
    by_cases h : l = l₀
    · subst h
      cases h : data l <;> simp [h]
    · rw [modifyEntry_of_ne _ h]
      simp [h]

lemma convert_isSome {l : κ} (h : (mem.data l).isSome = true) :
    ((mem.convertWritesToEstimates j).data l).isSome = true := by
  rw [convert_data]
  split_ifs
  · rwa [Option.isSome_map]
  · exact h

@[simp] theorem convert_lastLocations :
    (mem.convertWritesToEstimates j).lastLocations = mem.lastLocations := rfl

end Estimates

section RecordedEntry
variable (mem : MvMemory κ ν)

/-- What `record` does to every single entry: the transaction has what it wrote, nothing where only
its last incarnation wrote, and others keep theirs. -/
theorem record_entry (version : TxVersion) (readSet : ReadSet κ) (writeSet : WriteSet κ ν)
    (l : κ) (j : ℕ) :
    (mem.record version readSet writeSet).2.entry l j =
      if j = version.txIdx then
        match written writeSet l with
        | some value => some (.data version.txIncarnation value)
        | none => if l ∈ (mem.lastLocations version.txIdx).write then none else mem.entry l j
      else mem.entry l j := by
  unfold entry
  rw [record_data]
  cases written writeSet l with
  | some value =>
    by_cases hj : j = version.txIdx
    · simp [hj]
    · cases mem.data l <;> simp [hj]
  | none =>
    by_cases hl : l ∈ (mem.lastLocations version.txIdx).write
    · by_cases hj : j = version.txIdx
      · cases mem.data l <;> simp [hj, hl]
      · cases mem.data l <;> simp [hj, hl]
    · simp [hl]

/-- Recording a transaction leaves the entries of the others alone. -/
lemma record_entry_of_ne {version : TxVersion} {j : ℕ} (h : j ≠ version.txIdx)
    (readSet : ReadSet κ) (writeSet : WriteSet κ ν) (l : κ) :
    (mem.record version readSet writeSet).2.entry l j = mem.entry l j := by
  rw [record_entry, if_neg h]

/-- What `convert_writes_to_estimates` does to every single entry. -/
theorem convert_entry (i : ℕ) (l : κ) (j : ℕ) :
    (mem.convertWritesToEstimates i).entry l j =
      if j = i ∧ l ∈ (mem.lastLocations i).write ∧ (mem.data l).isSome = true then
        some .estimate
      else mem.entry l j := by
  unfold entry
  rw [convert_data]
  by_cases hl : l ∈ (mem.lastLocations i).write
  · by_cases hj : j = i
    · cases mem.data l <;> simp [hj, hl]
    · cases mem.data l <;> simp [hj, hl]
  · simp [hl]

end RecordedEntry

section Validity
variable {mem : MvMemory κ ν} {j : ℕ}

/-- Recording a transaction leaves the read sets of lower ones valid. -/
theorem validate_record_of_lt {version : TxVersion} (hj : j < version.txIdx)
    (readSet : ReadSet κ) (writeSet : WriteSet κ ν) (h : mem.validateReadLocations j = true) :
    (mem.record version readSet writeSet).2.validateReadLocations j = true := by
  rw [validateReadLocations_iff] at h ⊢
  rw [record_lastLocations_of_ne _ _ _ _ (by omega)]
  intro e he
  have hloc := h e he
  have hupdate : ∀ (m : ℕ → Option (MemoryEntry ν)) x origins, originsMatch m j origins = true →
      originsMatch (Function.update m version.txIdx x) j origins = true := by
    intro m x origins hm
    rw [← hm]
    apply originsMatch_congr
    intro i hi
    rw [Function.update_of_ne (by omega)]
  unfold validateLocation at hloc ⊢
  rw [record_data]
  cases hd : mem.data e.1 with
  | some m =>
    rw [hd] at hloc
    cases written writeSet e.1 with
    | some value => exact hupdate m _ _ hloc
    | none =>
      dsimp only
      split_ifs
      · exact hupdate m _ _ hloc
      · exact hloc
  | none =>
    rw [hd] at hloc
    have horigins : e.2 = [.storage] := by simpa using hloc
    cases written writeSet e.1 with
    | some value =>
      rw [horigins]
      exact hupdate _ _ _ (by simp [originsMatch, closestBelow_eq_none.mpr])
    | none =>
      dsimp only
      split_ifs
      · exact hloc
      · exact hloc

/-- Recording over estimates only, with no new location, leaves all other read sets valid. -/
theorem validate_record_of_not_new {version : TxVersion} (hj : j ≠ version.txIdx)
    (readSet : ReadSet κ) (writeSet : WriteSet κ ν)
    (hnew : (mem.record version readSet writeSet).1 = false)
    (hestimate : ∀ l ∈ (mem.lastLocations version.txIdx).write,
      mem.entry l version.txIdx = some .estimate)
    (h : mem.validateReadLocations j = true) :
    (mem.record version readSet writeSet).2.validateReadLocations j = true := by
  have hold : ∀ l, written writeSet l ≠ none →
      l ∈ (mem.lastLocations version.txIdx).write := by
    intro l hl
    by_contra hnot
    have htrue := (record_wroteNew mem version readSet writeSet).mpr ⟨l, hl, hnot⟩
    rw [hnew] at htrue
    cases htrue
  rw [validateReadLocations_iff] at h ⊢
  rw [record_lastLocations_of_ne _ _ _ _ hj]
  intro e he
  have hloc := h e he
  have hwrite : ∀ x, e.1 ∈ (mem.lastLocations version.txIdx).write →
      ∃ m, mem.data e.1 = some m ∧
        originsMatch (Function.update m version.txIdx x) j e.2 = true := by
    intro x hmem
    obtain ⟨m, hd, hm⟩ := data_of_entry mem (hestimate e.1 hmem)
    refine ⟨m, hd, originsMatch_update ?_ hm x⟩
    simpa [validateLocation, hd] using hloc
  unfold validateLocation at hloc ⊢
  rw [record_data]
  cases hw : written writeSet e.1 with
  | some value =>
    obtain ⟨m, hd, hm⟩ := hwrite (some (.data version.txIncarnation value))
      (hold e.1 (by simp [hw]))
    simpa [hd] using hm
  | none =>
    dsimp only
    split_ifs with hmem
    · obtain ⟨m, hd, hm⟩ := hwrite none hmem
      simpa [hd] using hm
    · exact hloc

/-- The estimates of a transaction leave the read sets of lower ones valid. -/
theorem validate_convert_of_lt {i : ℕ} (hj : j < i) (h : mem.validateReadLocations j = true) :
    (mem.convertWritesToEstimates i).validateReadLocations j = true := by
  rw [validateReadLocations_iff] at h ⊢
  rw [convert_lastLocations]
  intro e he
  have hloc := h e he
  unfold validateLocation at hloc ⊢
  rw [convert_data]
  split_ifs
  · cases hd : mem.data e.1 with
    | none =>
      rw [hd] at hloc
      exact hloc
    | some m =>
      rw [hd] at hloc
      dsimp only [Option.map_some] at hloc ⊢
      rw [← hloc]
      apply originsMatch_congr
      intro k hk
      rw [Function.update_of_ne (by omega)]
  · exact hloc

end Validity

end MvMemory

end Pevm
