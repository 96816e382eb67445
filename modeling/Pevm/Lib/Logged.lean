import Pevm.Lib.Fallible

/-!
# Fallible computations with a log

A computation that fails or returns a value, and leaves a list of events behind in
either case. Forgetting the log is a map into `Except` that respects sequencing. A
specification `Ensures P E x Q` says at once what may be logged, how the computation
may fail, and what holds of its value. A computation reports the failed events on its
record if it fails with their error.
-/

universe u v

/-- A computation that may fail and has put events on record, whether it has failed or not. -/
structure Logged (ν : Type u) (ε α : Type v) where
  result : Except ε α
  log : List ν

namespace Logged

variable {ν : Type u} {ε ε' α β : Type v}

/-- The record goes on with that of the second computation, which is not begun after a failure. -/
def andThen (x : Logged ν ε α) (f : α → Logged ν ε β) : Logged ν ε β :=
  match x.result with
  | .error e => ⟨.error e, x.log⟩
  | .ok a => ⟨(f a).result, x.log ++ (f a).log⟩

instance : Monad (Logged ν ε) where
  pure a := ⟨.ok a, []⟩
  bind := andThen

/-- Put one event on record. -/
def note (n : ν) : Logged ν ε PUnit := ⟨.ok .unit, [n]⟩

/-- A computation that logs nothing. -/
def quiet (x : Except ε α) : Logged ν ε α := ⟨x, []⟩

/-- The same computation with its failure under another name; the record stays. -/
def mapError (f : ε → ε') (x : Logged ν ε α) : Logged ν ε' α := ⟨x.result.mapError f, x.log⟩

/-- The value, if there is one. A failure is dropped as a value, but it stays on record. -/
def attempt (x : Logged ν ε α) : Logged ν ε (Option α) := ⟨.ok x.result.toOption, x.log⟩

section Result

@[simp] lemma result_pure (a : α) : (pure a : Logged ν ε α).result = .ok a := rfl

@[simp] lemma result_note (n : ν) : (note n : Logged ν ε PUnit).result = .ok .unit := rfl

@[simp] lemma result_quiet (x : Except ε α) : (quiet x : Logged ν ε α).result = x := rfl

@[simp] lemma log_note (n : ν) : (note n : Logged ν ε PUnit).log = [n] := rfl

@[simp] lemma log_quiet (x : Except ε α) : (quiet x : Logged ν ε α).log = [] := rfl

@[simp] lemma result_mapError_eq_ok {g : ε → ε'} {x : Logged ν ε α} {a : α} :
    (x.mapError g).result = .ok a ↔ x.result = .ok a := by
  unfold mapError
  cases x.result <;> simp [Except.mapError]

@[simp] lemma result_bind (x : Logged ν ε α) (f : α → Logged ν ε β) :
    (x >>= f).result = x.result >>= fun a => (f a).result := by
  show (andThen x f).result = _
  unfold andThen
  cases x.result <;> rfl

lemma log_bind_ok {x : Logged ν ε α} {a : α} (h : x.result = .ok a) (f : α → Logged ν ε β) :
    (x >>= f).log = x.log ++ (f a).log := by
  show (andThen x f).log = _
  unfold andThen
  rw [h]

lemma log_bind_error {x : Logged ν ε α} {e : ε} (h : x.result = .error e)
    (f : α → Logged ν ε β) : (x >>= f).log = x.log := by
  show (andThen x f).log = _
  unfold andThen
  rw [h]

end Result

/-- Every event on record satisfies `P`, every failure `E` and every value `Q`. -/
structure Ensures (P : ν → Prop) (E : ε → Prop) (x : Logged ν ε α) (Q : α → Prop) : Prop where
  log : ∀ n ∈ x.log, P n
  error : ∀ e, x.result = .error e → E e
  ok : ∀ a, x.result = .ok a → Q a

namespace Ensures

variable {P : ν → Prop} {E E' : ε → Prop} {x : Logged ν ε α} {Q Q' : α → Prop}

theorem pure {a : α} (h : Q a) : Ensures P E (Pure.pure a : Logged ν ε α) Q where
  log _ hn := absurd hn List.not_mem_nil
  error _ he := by cases he
  ok b hb := by
    cases hb
    exact h

theorem note {n : ν} (h : P n) : Ensures P E (Logged.note n) fun _ => True where
  log m hm := by
    rw [log_note, List.mem_singleton] at hm
    exact hm ▸ h
  error _ he := by cases he
  ok _ _ := trivial

theorem quiet {r : Except ε α} (hE : ∀ e, r = .error e → E e) (hQ : ∀ a, r = .ok a → Q a) :
    Ensures P E (Logged.quiet r) Q where
  log _ hn := absurd hn List.not_mem_nil
  error := hE
  ok := hQ

theorem bind {R : β → Prop} {f : α → Logged ν ε β} (hx : Ensures P E x Q)
    (hf : ∀ a, Q a → Ensures P E (f a) R) : Ensures P E (x >>= f) R := by
  cases h : x.result with
  | error e =>
    have hres : (x >>= f).result = .error e := by rw [result_bind, h, Fallible.error_bind]
    refine ⟨?_, ?_, ?_⟩
    · rw [log_bind_error h]
      exact hx.log
    · intro e' he'
      rw [hres] at he'
      cases he'
      exact hx.error e h
    · intro b hb
      rw [hres] at hb
      cases hb
  | ok a =>
    have hres : (x >>= f).result = (f a).result := by rw [result_bind, h, Fallible.ok_bind]
    have ha := hf a (hx.ok a h)
    refine ⟨?_, ?_, ?_⟩
    · intro n hn
      rw [log_bind_ok h, List.mem_append] at hn
      exact hn.elim (hx.log n) (ha.log n)
    · rw [hres]
      exact ha.error
    · rw [hres]
      exact ha.ok

theorem mono (h : Ensures P E x Q) (hE : ∀ e, E e → E' e) (hQ : ∀ a, Q a → Q' a) :
    Ensures P E' x Q' :=
  ⟨h.log, fun e he => hE e (h.error e he), fun a ha => hQ a (h.ok a ha)⟩

/-- A computation that cannot fail returns a value. -/
theorem total (h : Ensures P (fun _ => False) x Q) : ∃ a, x.result = .ok a ∧ Q a := by
  cases hr : x.result with
  | error e => exact (h.error e hr).elim
  | ok a => exact ⟨a, rfl, h.ok a hr⟩

end Ensures

/-- What a sequence logs includes what its first step logs. -/
lemma mem_log_bind {x : Logged ν ε α} {f : α → Logged ν ε β} {n : ν} (h : n ∈ x.log) :
    n ∈ (x >>= f).log := by
  cases hr : x.result with
  | error e => rwa [log_bind_error hr]
  | ok a =>
    rw [log_bind_ok hr]
    exact List.mem_append_left _ h

/-- It includes what the rest logs when the first step succeeds. -/
lemma mem_log_bind_ok {x : Logged ν ε α} {f : α → Logged ν ε β} {a : α} {n : ν}
    (hx : x.result = .ok a) (h : n ∈ (f a).log) : n ∈ (x >>= f).log := by
  rw [log_bind_ok hx]
  exact List.mem_append_right _ h

/-- No failure on record is lost: if there is one, the computation fails with it. -/
def Reports (failure : ν → Option ε) (x : Logged ν ε α) : Prop :=
  ∀ n ∈ x.log, ∀ e, failure n = some e → x.result = .error e

/-- What the computation fails with, if it is an error of this kind, has failed on record. -/
def Records (K : ε → Prop) (failure : ν → Option ε) (x : Logged ν ε α) : Prop :=
  ∀ e, K e → x.result = .error e → ∃ n ∈ x.log, failure n = some e

section Failures
variable {K : ε → Prop} {failure : ν → Option ε} {x : Logged ν ε α} {f : α → Logged ν ε β}

lemma Reports.of_log_nil (h : x.log = []) : Reports failure x := by
  intro n hn
  rw [h] at hn
  exact absurd hn List.not_mem_nil

theorem Reports.pure (a : α) : Reports failure (Pure.pure a : Logged ν ε α) := .of_log_nil rfl

theorem Reports.quiet (r : Except ε α) : Reports failure (Logged.quiet r) := .of_log_nil rfl

/-- Where the first step has reported nothing the second one may report. -/
theorem Reports.bind (hx : Reports failure x) (hf : ∀ a, x.result = .ok a → Reports failure (f a)) :
    Reports failure (x >>= f) := by
  intro n hn e he
  rw [result_bind]
  cases hr : x.result with
  | error e' =>
    rw [log_bind_error hr] at hn
    have hreport := hx n hn e he
    rw [hr] at hreport
    rw [Fallible.error_bind]
    exact congrArg Except.error (Except.error.inj hreport)
  | ok a =>
    rw [log_bind_ok hr, List.mem_append] at hn
    rcases hn with hn | hn
    · have hreport := hx n hn e he
      rw [hr] at hreport
      cases hreport
    · exact hf a hr n hn e he

theorem Reports.mapError (h : Reports failure x) (g : ε → ε') :
    Reports (fun n => (failure n).map g) (x.mapError g) := by
  intro n hn e he
  obtain ⟨e', he', rfl⟩ := Option.map_eq_some_iff.mp he
  show x.result.mapError g = .error (g e')
  rw [h n hn e' he']
  rfl

/-- A value comes of a computation without failed events. -/
lemma Reports.failure_eq_none (h : Reports failure x) {a : α} (hx : x.result = .ok a) {n : ν}
    (hn : n ∈ x.log) : failure n = none := by
  cases he : failure n with
  | none => rfl
  | some e =>
    have hreport := h n hn e he
    rw [hx] at hreport
    cases hreport

theorem Records.pure (a : α) : Records K failure (Pure.pure a : Logged ν ε α) := by
  intro e _ he
  cases he

theorem Records.quiet {r : Except ε α} (h : ∀ e, r = .error e → ¬ K e) :
    Records K failure (Logged.quiet r) :=
  fun e hK he => absurd hK (h e he)

theorem Records.bind (hx : Records K failure x) (hf : ∀ a, Records K failure (f a)) :
    Records K failure (x >>= f) := by
  intro e hK he
  rw [result_bind] at he
  cases hr : x.result with
  | error e' =>
    rw [hr, Fallible.error_bind] at he
    cases he
    obtain ⟨n, hn, hfailure⟩ := hx e hK hr
    exact ⟨n, mem_log_bind hn, hfailure⟩
  | ok a =>
    rw [hr, Fallible.ok_bind] at he
    obtain ⟨n, hn, hfailure⟩ := hf a e hK he
    exact ⟨n, mem_log_bind_ok hr hn, hfailure⟩

end Failures

end Logged
