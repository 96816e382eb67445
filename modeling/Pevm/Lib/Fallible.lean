import Mathlib.Tactic

/-!
# Fallible computations

Rules for sequences of steps in `Except`: how a success goes through a step, how
a failure ends it, what a successful sequence says about its steps, and what is known of the
error of a failed one.
-/
namespace Fallible

universe u v
variable {ε : Type u} {α β : Type v} {x : Except ε α} {f : α → Except ε β}

@[simp] theorem ok_bind (a : α) (f : α → Except ε β) : (Except.ok a >>= f) = f a := rfl

@[simp] theorem error_bind (e : ε) (f : α → Except ε β) :
    (Except.error e >>= f) = Except.error e := rfl

theorem bind_eq_ok {b : β} : (x >>= f) = .ok b ↔ ∃ a, x = .ok a ∧ f a = .ok b := by
  cases x with
  | error e => simp
  | ok a => simp

theorem map_eq_ok {g : α → β} {b : β} : x.map g = .ok b ↔ ∃ a, x = .ok a ∧ g a = b := by
  cases x with
  | error e => simp [Except.map]
  | ok a => simp [Except.map]

theorem exists_ok (h : x.isOk = true) : ∃ a, x = .ok a := by
  cases x with
  | error e => cases h
  | ok a => exact ⟨a, rfl⟩

/-- A postcondition of a sequence: of the first step for every value it can give, then
of the continuation on that value. -/
def Post (x : Except ε α) (P : α → Prop) : Prop := ∀ a, x = .ok a → P a

theorem Post.trivial : Post x fun _ => True := fun _ _ => True.intro

theorem Post.bind {P : α → Prop} {Q : β → Prop} (hx : Post x P)
    (hf : ∀ a, P a → Post (f a) Q) : Post (x >>= f) Q := by
  intro b hb
  obtain ⟨a, ha, hfa⟩ := bind_eq_ok.mp hb
  exact hf a (hx a ha) b hfa

theorem Post.pure {P : α → Prop} {a : α} (h : P a) : Post (Pure.pure a : Except ε α) P := by
  intro b hb
  cases hb
  exact h

theorem Post.error {P : α → Prop} (e : ε) : Post (Except.error e : Except ε α) P := by
  intro a ha
  cases ha

/-- What holds of the error that a sequence ends with, if it ends with one. -/
def Fails (x : Except ε α) (P : ε → Prop) : Prop := ∀ e, x = .error e → P e

theorem Fails.ok {P : ε → Prop} (a : α) : Fails (Except.ok a : Except ε α) P := by
  intro e he
  cases he

theorem Fails.error {P : ε → Prop} {e : ε} (h : P e) :
    Fails (Except.error e : Except ε α) P := by
  intro e' he
  cases he
  exact h

theorem Fails.bind {P : ε → Prop} (hx : Fails x P) (hf : ∀ a, x = .ok a → Fails (f a) P) :
    Fails (x >>= f) P := by
  intro e he
  cases x with
  | error e' =>
    rw [error_bind] at he
    exact hx e (congrArg Except.error (Except.error.inj he))
  | ok a => exact hf a rfl e he

/-- A list of steps succeeds with the results of all of them. -/
theorem mapM_eq_ok {xs : List α} {ys : List β} :
    xs.mapM f = .ok ys ↔ List.Forall₂ (fun a b => f a = .ok b) xs ys := by
  induction xs generalizing ys with
  | nil =>
    rw [List.mapM_nil, List.forall₂_nil_left_iff]
    exact ⟨fun h => (Except.ok.inj h).symm, fun h => h ▸ rfl⟩
  | cons x xs ih =>
    rw [List.mapM_cons, bind_eq_ok, List.forall₂_cons_left_iff]
    refine exists_congr fun y => ?_
    constructor
    · rintro ⟨hy, hys⟩
      obtain ⟨zs, hzs, hpure⟩ := bind_eq_ok.mp hys
      exact ⟨zs, hy, ih.mp hzs, (Except.ok.inj hpure).symm⟩
    · rintro ⟨zs, hy, hzs, rfl⟩
      exact ⟨hy, bind_eq_ok.mpr ⟨zs, ih.mpr hzs, rfl⟩⟩

lemma exists_ok_of_mem {xs : List α} {ys : List β} {a : α}
    (h : List.Forall₂ (fun a b => f a = .ok b) xs ys) (ha : a ∈ xs) : ∃ b, f a = .ok b := by
  induction h with
  | nil => cases ha
  | cons hok _ ih =>
    rcases List.mem_cons.mp ha with rfl | ha
    · exact ⟨_, hok⟩
    · exact ih ha

/-- Steps on whose results a function is applied. -/
theorem mapM_map {γ : Type v} (f : α → Except ε β) (g : β → γ) (xs : List α) :
    (xs.mapM fun a => (f a).map g) = (xs.mapM f).map (List.map g) := by
  induction xs with
  | nil => rfl
  | cons x xs ih =>
    rw [List.mapM_cons, List.mapM_cons, ih]
    cases f x with
    | error e => rfl
    | ok b => cases xs.mapM f <;> rfl

/-- It fails with the error of one of them. -/
theorem Fails.mapM (f : α → Except ε β) (xs : List α) :
    Fails (xs.mapM f) fun e => ∃ a ∈ xs, f a = .error e := by
  induction xs with
  | nil => exact Fails.ok []
  | cons x xs ih =>
    rw [List.mapM_cons]
    refine Fails.bind (fun e he => ⟨x, List.mem_cons_self, he⟩) fun y _ => ?_
    refine Fails.bind (fun e he => ?_) fun ys _ => Fails.ok _
    obtain ⟨a, ha, hfa⟩ := ih e he
    exact ⟨a, List.mem_cons_of_mem x ha, hfa⟩

end Fallible
