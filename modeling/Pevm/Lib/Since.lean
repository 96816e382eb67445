import Mathlib.Tactic

/-!
# What has held since

The past of a sequence of events: `Since P Q events` says that an event with `P` has
happened and that every event after it satisfies `Q`. One more event either is such an
event or keeps what has held.
-/
namespace History

variable {α : Type*} {P Q : α → Prop} {R : List α → α → Prop}

/-- Some event satisfies `P`, and all events after it satisfy `Q`. -/
def Since (P Q : α → Prop) (events : List α) : Prop :=
  ∃ before e after, events = before ++ e :: after ∧ P e ∧ ∀ a ∈ after, Q a

/-- The same of an event that has `R` to the events before it. -/
def SinceAfter (R : List α → α → Prop) (Q : α → Prop) (events : List α) : Prop :=
  ∃ before e after, events = before ++ e :: after ∧ R before e ∧ ∀ a ∈ after, Q a

lemma sinceAfter_nil : ¬ SinceAfter R Q [] := by
  intro ⟨before, e, after, hsplit, _⟩
  simp at hsplit

lemma since_nil : ¬ Since P Q [] := sinceAfter_nil (R := fun _ => P)

theorem sinceAfter_concat (events : List α) (a : α) :
    SinceAfter R Q (events ++ [a]) ↔ R events a ∨ (SinceAfter R Q events ∧ Q a) := by
  constructor
  · intro ⟨before, e, after, hsplit, hR, hQ⟩
    induction after using List.reverseRecOn with
    | nil =>
      obtain ⟨hevents, hae⟩ := List.append_inj' hsplit rfl
      rw [hevents, List.singleton_inj.mp hae]
      exact .inl hR
    | append_singleton after last _ =>
      rw [← List.cons_append, ← List.append_assoc] at hsplit
      obtain ⟨hevents, hlast⟩ := List.append_inj' hsplit rfl
      have hsame := List.singleton_inj.mp hlast
      refine .inr ⟨⟨before, e, after, hevents, hR, fun b hb => hQ b ?_⟩, ?_⟩
      · exact List.mem_append_left _ hb
      · rw [hsame]
        exact hQ last (List.mem_append_right _ List.mem_cons_self)
  · intro h
    obtain hR | ⟨⟨before, e, after, hsplit, hR, hQ⟩, hQa⟩ := h
    · exact ⟨events, a, [], rfl, hR, fun b hb => absurd hb List.not_mem_nil⟩
    · refine ⟨before, e, after ++ [a], ?_, hR, ?_⟩
      · rw [hsplit, List.append_assoc, List.cons_append]
      · intro b hb
        rw [List.mem_append, List.mem_singleton] at hb
        exact hb.elim (hQ b) fun h => h ▸ hQa

theorem since_concat (events : List α) (a : α) :
    Since P Q (events ++ [a]) ↔ P a ∨ (Since P Q events ∧ Q a) :=
  sinceAfter_concat (R := fun _ => P) events a

end History
