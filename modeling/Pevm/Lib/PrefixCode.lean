import Mathlib.Tactic

/-!
# Prefix codes

Records that can be told apart, and told from what follows them, at the head of any
input. A sequence of them is determined by its concatenation, up to what a single
record determines.
-/
namespace PrefixCode

variable {α β γ : Type*}

/-- At the head of any input the code of a member of `S` determines where it ends and
what `f` keeps of the member. -/
def HeadDetermines (S : Set α) (encode : α → List β) (f : α → γ) : Prop :=
  ∀ a ∈ S, ∀ b ∈ S, ∀ r s, encode a ++ r = encode b ++ s → f a = f b ∧ r = s

theorem HeadDetermines.map_eq {S : Set α} {encode : α → List β} {f : α → γ}
    (h : HeadDetermines S encode f) (hne : ∀ a ∈ S, encode a ≠ []) {xs ys : List α}
    (hxs : ∀ a ∈ xs, a ∈ S) (hys : ∀ a ∈ ys, a ∈ S)
    (heq : xs.flatMap encode = ys.flatMap encode) : xs.map f = ys.map f := by
  induction xs generalizing ys with
  | nil =>
    cases ys with
    | nil => rfl
    | cons y ys =>
      rw [List.flatMap_nil, List.flatMap_cons] at heq
      have hy : encode y = [] := (List.append_eq_nil_iff.mp heq.symm).1
      exact absurd hy (hne y (hys y List.mem_cons_self))
  | cons x xs ih =>
    cases ys with
    | nil =>
      rw [List.flatMap_nil, List.flatMap_cons] at heq
      have hx : encode x = [] := (List.append_eq_nil_iff.mp heq).1
      exact absurd hx (hne x (hxs x List.mem_cons_self))
    | cons y ys =>
      rw [List.flatMap_cons, List.flatMap_cons] at heq
      obtain ⟨hhead, hrest⟩ := h x (hxs x List.mem_cons_self) y (hys y List.mem_cons_self) _ _ heq
      have htail := ih (fun a ha => hxs a (List.mem_cons_of_mem _ ha))
        (fun a ha => hys a (List.mem_cons_of_mem _ ha)) hrest
      rw [List.map_cons, List.map_cons, hhead, htail]

end PrefixCode
