import Pevm.Pexe.Chronicle
import Pevm.Pexe.Program

/-!
# The history of a block

What the executions of a block have read. A version is recorded at most once, so an entry tells
which write set it comes from, and the origins of a read set tell what was read.
-/
namespace Pevm
open Transition VersionMap

/-- The write sets of the versions recorded so far. -/
abbrev Log (κ ν : Type) := TxVersion → Option (WriteSet κ ν)

namespace Block
variable {Loc κ ν ρ : Type} [DecidableEq κ]

section Follows
variable (b : Block Loc κ ν ρ) (log : Log κ ν)

/-- The value behind a read origin, looked up in the log or in the storage. -/
def originValue (l : Loc) : ReadOrigin → Option ν
  | .mvMemory v => (log v).bind fun writeSet => MvMemory.written writeSet (b.hash l)
  | .storage => some (b.storage l)

/-- What a read set says that was read at a location. -/
def answers (readSet : ReadSet κ) (l : Loc) : Option ν :=
  match readSet.lookup (b.hash l) with
  | some [origin] => b.originValue log l origin
  | _ => none

/-- The transaction has got to the program by the reads of the read set, each of which has one
origin. -/
structure Follows (i : ℕ) (p : Prog Loc ν ρ) (readSet : ReadSet κ) : Prop where
  reaches : (b.tx i).Reaches (b.answers log readSet) p
  single : ∀ key origins, readSet.lookup key = some origins → ∃ origin, origins = [origin]

variable {b log} {i : ℕ} {p : Prog Loc ν ρ} {readSet : ReadSet κ}

lemma Follows.start : b.Follows log i (b.tx i) ∅ where
  reaches := .refl
  single := by simp

lemma originValue_mono {log' : Log κ ν} (hlog : ∀ v ws, log v = some ws → log' v = some ws)
    {l : Loc} {origin : ReadOrigin} {x : ν} (h : b.originValue log l origin = some x) :
    b.originValue log' l origin = some x := by
  cases origin with
  | storage => exact h
  | mvMemory v =>
    obtain ⟨ws, hws, hx⟩ := Option.bind_eq_some_iff.mp h
    simp [originValue, hlog v ws hws, hx]

lemma answers_eq_some {l : Loc} {x : ν} :
    b.answers log readSet l = some x ↔
      ∃ origin, readSet.lookup (b.hash l) = some [origin] ∧
        b.originValue log l origin = some x := by
  unfold answers
  split
  · rename_i origin hlookup
    simp [hlookup]
  · rename_i hnot
    constructor
    · intro h
      cases h
    · rintro ⟨origin, hlookup, -⟩
      exact absurd hlookup (hnot origin)

lemma Follows.mono {log' : Log κ ν} (h : b.Follows log i p readSet)
    (hlog : ∀ v ws, log v = some ws → log' v = some ws) : b.Follows log' i p readSet where
  reaches := by
    apply h.reaches.mono
    intro l x ha
    obtain ⟨origin, hlookup, hx⟩ := answers_eq_some.mp ha
    exact answers_eq_some.mpr ⟨origin, hlookup, originValue_mono hlog hx⟩
  single := h.single

/-- A read adds its origin, or finds it there. -/
lemma pushOrigin_of_single {lookup : Option (List ReadOrigin)} {origin : ReadOrigin}
    {readOrigins : List ReadOrigin}
    (hsingle : ∀ origins, lookup = some origins → ∃ o, origins = [o])
    (h : pushOrigin (lookup.getD []) origin = some readOrigins) :
    readOrigins = [origin] ∧ ∀ origins, lookup = some origins → origins = [origin] := by
  cases lookup with
  | none =>
    constructor
    · simpa [pushOrigin] using h.symm
    · simp
  | some origins =>
    obtain ⟨o, rfl⟩ := hsingle origins rfl
    by_cases ho : o = origin
    · subst ho
      constructor
      · simpa [pushOrigin] using h.symm
      · simp
    · simp [pushOrigin, ho] at h

/-- A read goes on with the value behind the origin it pushes. -/
lemma Follows.read {l : Loc} {next : ν → Prog Loc ν ρ} (h : b.Follows log i (.read l next) readSet)
    {origin : ReadOrigin} {readOrigins : List ReadOrigin} {x : ν}
    (hpush : pushOrigin ((readSet.lookup (b.hash l)).getD []) origin = some readOrigins)
    (hx : b.originValue log l origin = some x) :
    b.Follows log i (next x) (readSet.insert (b.hash l) readOrigins) := by
  obtain ⟨rfl, hold⟩ := pushOrigin_of_single (h.single (b.hash l)) hpush
  have hkeep : ∀ l' y, b.answers log readSet l' = some y →
      b.answers log (readSet.insert (b.hash l) [origin]) l' = some y := by
    intro l' y ha
    obtain ⟨o, hlookup, hy⟩ := answers_eq_some.mp ha
    apply answers_eq_some.mpr
    by_cases hl : b.hash l' = b.hash l
    · rw [hl] at hlookup
      have ho : [o] = [origin] := hold _ hlookup
      cases ho
      exact ⟨origin, by rw [hl, AList.lookup_insert], hy⟩
    · exact ⟨o, by rw [AList.lookup_insert_ne hl, hlookup], hy⟩
  constructor
  case reaches =>
    apply Prog.Reaches.read (h.reaches.mono hkeep)
    exact answers_eq_some.mpr ⟨origin, AList.lookup_insert _, hx⟩
  case single =>
    intro key origins hlookup
    by_cases hkey : key = b.hash l
    · rw [hkey, AList.lookup_insert] at hlookup
      cases hlookup
      exact ⟨origin, rfl⟩
    · rw [AList.lookup_insert_ne hkey] at hlookup
      exact h.single key origins hlookup

end Follows

section History
variable (b : Block Loc κ ν ρ)
  (log : TxVersion → Option (Execution (Prog Loc ν ρ × ReadSet κ) κ ν ρ))

/-- The write sets of the recorded executions. -/
def writes : Log κ ν := fun v => (log v).map Execution.writeSet

/-- What the executions in the log say of the state of a block of programs between any two calls. -/
structure History {W : Type} (initial : MvMemory κ ν)
    (σ : Pexe W (Prog Loc ν ρ × ReadSet κ) κ ν ρ) : Prop where
  chronicle : Pexe.Chronicle b.vm initial log σ
  entries : ∀ key i inc x, σ.mvMemory.entry key i = some (.data inc x) →
    ∃ writeSet, writes log ⟨i, inc⟩ = some writeSet ∧ MvMemory.written writeSet key = some x
  jobs : ∀ w v job, σ.phase w = .executing v job → b.Follows (writes log) v.txIdx job.1 job.2
  recorded : ∀ v e, log v = some e → b.Follows (writes log) v.txIdx e.job.1 e.job.2

variable {b log} {W : Type} {initial : MvMemory κ ν}
  {σ σ' : Pexe W (Prog Loc ν ρ × ReadSet κ) κ ν ρ} {v : TxVersion}
  {e : Execution (Prog Loc ν ρ × ReadSet κ) κ ν ρ}

omit [DecidableEq κ] in
/-- A version that is recorded for the first time. -/
lemma writes_update (hfresh : log v = none) {u : TxVersion} {writeSet : WriteSet κ ν}
    (hu : writes log u = some writeSet) :
    writes (Function.update log v (some e)) u = some writeSet := by
  have hne : u ≠ v := by
    rintro rfl
    simp [writes, hfresh] at hu
  simpa [writes, hne] using hu

omit [DecidableEq κ] in
lemma writes_update_self : writes (Function.update log v (some e)) v = some e.writeSet := by
  simp [writes]

/-- A program that goes on has read what the origin says. -/
lemma History.follows (h : b.History log initial σ) {w : W} {job : Prog Loc ν ρ × ReadSet κ}
    (hadvanced : Pexe.Advanced b.vm σ w v job) : b.Follows (writes log) v.txIdx job.1 job.2 := by
  obtain hphase | rfl | ⟨⟨p, readSet⟩, hphase, hnext⟩ := hadvanced
  · exact h.jobs w v job hphase
  · exact Follows.start
  · have hfollows : b.Follows (writes log) v.txIdx p readSet := h.jobs w v _ hphase
    cases p with
    | done writeSet result => cases hnext
    | read l next =>
      obtain ⟨origin, x, readOrigins, rfl, hpush, hread⟩ :=
        readStorage_eq_running (Eq.symm hnext)
      apply hfollows.read hpush
      rcases hread with ⟨k, inc, rfl, hentry⟩ | ⟨rfl, rfl⟩
      · obtain ⟨writeSet, hlog, hx⟩ := h.entries _ _ _ _ hentry
        simp [originValue, hlog, hx]
      · rfl

/-- Every entry after a record is one that was recorded. -/
lemma History.record_entries (h : b.History log initial σ) (hfresh : log v = none) {key : κ}
    {i inc : ℕ} {x : ν}
    (he : (σ.mvMemory.record v e.readSet e.writeSet).2.entry key i = some (.data inc x)) :
    ∃ writeSet, writes (Function.update log v (some e)) ⟨i, inc⟩ = some writeSet ∧
      MvMemory.written writeSet key = some x := by
  have hold : σ.mvMemory.entry key i = some (.data inc x) →
      ∃ writeSet, writes (Function.update log v (some e)) ⟨i, inc⟩ = some writeSet ∧
        MvMemory.written writeSet key = some x := by
    intro hentry
    obtain ⟨writeSet, hlog, hx⟩ := h.entries key i inc x hentry
    exact ⟨writeSet, writes_update hfresh hlog, hx⟩
  by_cases hi : i = v.txIdx
  · subst hi
    rw [MvMemory.record_entry, if_pos rfl] at he
    cases hx : MvMemory.written e.writeSet key with
    | some value =>
      rw [hx] at he
      cases he
      exact ⟨_, writes_update_self, hx⟩
    | none =>
      rw [hx] at he
      dsimp only at he
      split_ifs at he
      exact hold he
  · rw [MvMemory.record_entry_of_ne _ hi] at he
    exact hold he

variable [DecidableEq W]

theorem History.step (h : b.History log initial σ) (hc : Crew.Invariant σ.crew)
    (hs : Pexe.Step b.vm σ σ') : ∃ log, b.History log initial σ' := by
  cases h.chronicle.step hc (.refl _) hs with
  | silent hmem hchronicle =>
    refine ⟨log, hchronicle, ?_, fun w v job hjob => h.follows (hs.advances hjob), h.recorded⟩
    rw [hmem]
    exact h.entries
  | convert i hmem hchronicle =>
    refine ⟨log, hchronicle, ?_, fun w v job hjob => h.follows (hs.advances hjob), h.recorded⟩
    rw [hmem]
    intro key i' inc x he
    rw [MvMemory.convert_entry] at he
    split_ifs at he
    · cases he
    · exact h.entries key i' inc x he
  | @record w v e hphase _ hfresh hmem hchronicle =>
    have hmono : ∀ u writeSet, writes log u = some writeSet →
        writes (Function.update log v (some e)) u = some writeSet :=
      fun _ _ hu => writes_update hfresh hu
    refine ⟨Function.update log v (some e), hchronicle, ?_, ?_, ?_⟩
    · rw [hmem]
      intro key i inc x he
      exact h.record_entries hfresh he
    · intro w' u job hjob
      exact (h.follows (hs.advances hjob)).mono hmono
    · intro u e' hu
      by_cases huv : u = v
      · subst huv
        rw [Function.update_self] at hu
        cases hu
        exact (h.jobs w u e.job hphase).mono hmono
      · rw [Function.update_of_ne huv] at hu
        exact (h.recorded u e' hu).mono hmono

end History

section Runs
variable {W : Type} [DecidableEq W] {b : Block Loc κ ν ρ} {L : Set Loc} {n i : ℕ}
  {log : TxVersion → Option (Execution (Prog Loc ν ρ × ReadSet κ) κ ν ρ)}
  {estimatedLocations : List (κ × List ℕ)} {σ : Pexe W (Prog Loc ν ρ × ReadSet κ) κ ν ρ}

lemma History.init (h : (Pexe.system W b.vm n estimatedLocations).init σ) :
    b.History (fun _ => none) (.new estimatedLocations) σ := by
  have hchronicle := Pexe.Chronicle.init h
  obtain ⟨-, hmem, hphase⟩ := h
  refine ⟨hchronicle, ?_, ?_, ?_⟩
  · intro key i inc x he
    rw [hmem] at he
    have hestimate := MvMemory.new_entry he
    cases hestimate
  · intro w v job hjob
    rw [hphase w] at hjob
    cases hjob
  · intro v e hv
    cases hv

theorem History.of_reachable [Nonempty W]
    (h : (Pexe.system W b.vm n estimatedLocations).Reachable σ) :
    ∃ log, b.History log (.new estimatedLocations) σ := by
  apply h.invariant (P := fun σ => ∃ log, b.History log (.new estimatedLocations) σ)
  · exact fun σ hσ => ⟨_, History.init hσ⟩
  · rintro σ σ' hr ⟨log, hlog⟩ hs
    exact hlog.step (Pexe.crew_invariant hr).1 hs

omit [DecidableEq W] in
/-- Off the estimated locations, an entry is listed among the writes of its transaction. -/
lemma History.listed (h : b.History log (.new estimatedLocations) σ)
    (hest : ∀ e ∈ estimatedLocations, ∀ l ∈ L, b.hash l ≠ e.1) {l : Loc} (hl : l ∈ L)
    (hentry : σ.mvMemory.entry (b.hash l) i ≠ none) :
    b.hash l ∈ (σ.mvMemory.lastLocations i).write := by
  by_contra hunlisted
  obtain ⟨x, hx⟩ := Option.ne_none_iff_exists'.mp hentry
  have hinitial := h.chronicle.unlisted i (b.hash l) x hunlisted hx
  rw [MvMemory.new_entry_of_ne (fun e he => hest e he l hl) i] at hinitial
  cases hinitial

variable [DecidableEq Loc]

/-- The last execution of `i` had this result, and its read set and its entries are in the
memory. -/
def Outcome (b : Block Loc κ ν ρ) (L : Set Loc) (log : Log κ ν) (mem : MvMemory κ ν) (i : ℕ)
    (result : ρ) : Prop :=
  ∃ writeSet inc, b.Follows log i (.done writeSet result) (mem.lastLocations i).read ∧
    ∀ l ∈ L, mem.entry (b.hash l) i = (MvMemory.written writeSet l).map (.data inc)

omit [DecidableEq W] in
/-- What is kept of a transaction is what its program came to. -/
theorem History.outcome (h : b.History log (.new estimatedLocations) σ)
    (hhash : Set.InjOn b.hash L) (hwithin : (b.tx i).Within L)
    (hest : ∀ e ∈ estimatedLocations, ∀ l ∈ L, b.hash l ≠ e.1) {result : ρ}
    (hkept : Pexe.Kept (.new estimatedLocations) log σ.mvMemory i result) :
    b.Outcome L (writes log) σ.mvMemory i result := by
  obtain ⟨v, ⟨⟨p, readSet⟩, mem, reads, writeSet, flags, result⟩, rfl, hv, rfl, hstands⟩ := hkept
  have hfollows : b.Follows (writes log) v.txIdx p readSet := h.recorded v _ hv
  have hnext : .finished reads writeSet flags result = b.execute v mem (p, readSet) :=
    h.chronicle.sound v _ hv
  cases p with
  | read l next => exact absurd hnext.symm readStorage_ne_finished
  | done writeSet' result' =>
    cases hnext
    refine ⟨writeSet', v.txIncarnation, ?_, fun l hl => ?_⟩
    · rw [hstands.read]
      exact hfollows
    · have hhashed := written_hashed hhash (hfollows.reaches.within hwithin) hl
      cases hx : MvMemory.written writeSet' l with
      | some x => exact hstands.written _ x (hhashed.trans hx)
      | none =>
        by_contra hentry
        obtain ⟨x, hx'⟩ := Option.ne_none_iff_exists'.mp hentry
        have hinitial := hstands.others _ x (hhashed.trans hx) hx'
        rw [MvMemory.new_entry_of_ne (fun e he => hest e he l hl) v.txIdx] at hinitial
        cases hinitial

end Runs

end Block

end Pevm
