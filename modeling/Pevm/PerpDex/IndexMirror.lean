import Mathlib.Data.Set.Card
import Pevm.PerpDex.OrderIndex

/-!
# Where the order index mirrors the orders

Every set of a value other than `Deleted` appends the id to the index, also if the order is
there already, and a set of `Deleted` leaves it in. So the index lists each order once and no
order besides exactly if no tracked location is set again before it is deleted.
-/
namespace List

/-- In a concatenation of lists without duplicates a value occurs as often as lists have it. -/
lemma count_flatMap_of_nodup {α β : Type*} [DecidableEq β] {f : α → List β} (b : β)
    (hf : ∀ a, (f a).Nodup) (l : List α) :
    (l.flatMap f).count b = (l.filter fun a => b ∈ f a).length := by
  induction l with
  | nil => rfl
  | cons a l ih =>
    rw [flatMap_cons, count_append, ih]
    by_cases hb : b ∈ f a
    · rw [filter_cons_of_pos (by simpa using hb), length_cons, count_eq_one_of_mem (hf a) hb]
      omega
    · rw [filter_cons_of_neg (by simpa using hb), count_eq_zero_of_not_mem hb]
      omega

end List

namespace Pevm.PerpDex.InMemoryStorage
open History

section Union
variable (s : InMemoryStorage) (user : Address)

/-- The markets under which the index has a list of the user, in the order of the map. -/
def indexedMarkets : List U64 := (s.userOrders.entries.filter (·.1.1 = user)).map (·.1.2)

lemma indexedMarkets_nodup : (s.indexedMarkets user).Nodup := by
  have hkeys : (s.userOrders.entries.map Sigma.fst).Nodup := s.userOrders.nodupKeys
  refine List.Nodup.map_on ?_ ((List.Nodup.of_map _ hkeys).filter _)
  intro e he e' he' hmarket
  have huser : e.1.1 = user := by simpa using (List.mem_filter.mp he).2
  have huser' : e'.1.1 = user := by simpa using (List.mem_filter.mp he').2
  refine List.inj_on_of_nodup_map hkeys (List.mem_filter.mp he).1 (List.mem_filter.mp he').1 ?_
  ext : 1
  · exact huser.trans huser'.symm
  · exact hmarket

lemma mem_indexedMarkets {m id : U64} (h : id ∈ s.getUserOrders user m) :
    m ∈ s.indexedMarkets user := by
  unfold getUserOrders at h
  cases hlookup : s.userOrders.lookup (user, m) with
  | none =>
    rw [hlookup] at h
    exact absurd h List.not_mem_nil
  | some ids =>
    have hentry := AList.mem_lookup_iff.mp hlookup
    exact List.mem_map.mpr ⟨_, List.mem_filter.mpr ⟨hentry, by simp⟩, rfl⟩

/-- The orders of all markets are those of one market after the other. -/
theorem getAllUserOrders_eq :
    s.getAllUserOrders user = (s.indexedMarkets user).flatMap (s.getUserOrders user) := by
  have hentry : ∀ e ∈ s.userOrders.entries, e.1.1 = user → e.2 = s.getUserOrders user e.1.2 := by
    intro e he huser
    have hlookup := AList.mem_lookup_iff.mpr he
    unfold getUserOrders
    rw [← huser, Option.mem_def.mp hlookup]
    rfl
  unfold getAllUserOrders indexedMarkets
  generalize s.userOrders.entries = entries at hentry ⊢
  induction entries with
  | nil => rfl
  | cons e entries ih =>
    rw [List.flatMap_cons, ih fun e' he' => hentry e' (List.mem_cons_of_mem e he')]
    by_cases huser : e.1.1 = user
    · rw [if_pos huser, List.filter_cons_of_pos (by simpa using huser), List.map_cons,
        List.flatMap_cons, ← hentry e List.mem_cons_self huser]
    · rw [if_neg huser, List.filter_cons_of_neg (by simpa using huser), List.nil_append]

end Union

/-- The location holds a value other than `Deleted`, so the order is there for whoever reads it. -/
def Present (s : InMemoryStorage) (user : Address) (m id : U64) : Prop :=
  ∃ v, s.data (.order user m id) = some v ∧ v ≠ .deleted

/-- A user's orders in a market are listed once each, and the list of all markets has an id as
often as there are markets with such an order. -/
structure Mirrors (s : InMemoryStorage) : Prop where
  nodup : ∀ user m, (s.getUserOrders user m).Nodup
  mem : ∀ user m id, id ∈ s.getUserOrders user m ↔ s.Present user m id
  all : ∀ user id, (s.getAllUserOrders user).count id = {m | s.Present user m id}.ncard

lemma count_getAllUserOrders {s : InMemoryStorage}
    (hnodup : ∀ user m, (s.getUserOrders user m).Nodup)
    (hmem : ∀ user m id, id ∈ s.getUserOrders user m ↔ s.Present user m id) (user : Address)
    (id : U64) : (s.getAllUserOrders user).count id = {m | s.Present user m id}.ncard := by
  rw [getAllUserOrders_eq, List.count_flatMap_of_nodup id (hnodup user),
    ← List.toFinset_card_of_nodup ((s.indexedMarkets_nodup user).filter _),
    ← Set.ncard_coe_finset]
  congr 1
  ext m
  simp only [List.coe_toFinset, List.mem_filter, decide_eq_true_eq, Set.mem_ofPred_eq, ← hmem]
  exact ⟨fun h => h.2, fun h => ⟨s.mem_indexedMarkets user h, h⟩⟩

section History
variable (calls : List StorageCall) (user : Address) (m id : U64)

/-- A tracked location was set once more, and no `delete` came after that: the index then has the id
twice, or an order that is gone. -/
def Disturbed (l : PerpDexLocation) : Prop :=
  SinceAfter (fun before c => Tracked before l ∧ ∃ v, c = .set l v) (fun c => c ≠ .delete l) calls

variable {calls} in
/-- A disturbed location is tracked. -/
lemma Disturbed.tracked {l : PerpDexLocation} (h : Disturbed calls l) : Tracked calls l := by
  induction calls using List.reverseRecOn with
  | nil => exact absurd h sinceAfter_nil
  | append_singleton calls c ih =>
    rw [Tracked, since_concat, ← Tracked]
    obtain ⟨htracked, v, rfl⟩ | ⟨hdisturbed, hdelete⟩ := (sinceAfter_concat calls c).mp h
    · exact .inr ⟨htracked, by simp⟩
    · exact .inr ⟨ih hdisturbed, hdelete⟩

lemma present_call (s : InMemoryStorage) (c : StorageCall) :
    (s.call c).Present user m id ↔
      (∃ v, c = .set (.order user m id) v ∧ v ≠ .deleted) ∨
        (s.Present user m id ∧ c.location ≠ .order user m id) := by
  unfold Present
  rw [call_data]
  by_cases hl : c.location = .order user m id
  · rw [← hl, Function.update_self]
    cases c <;> simp [StorageCall.value, StorageCall.location]
  · have hset : ∀ v, c ≠ .set (.order user m id) v := fun v h => hl (by rw [h]; rfl)
    rw [Function.update_of_ne (Ne.symm hl)]
    simp [hl, hset]

variable {user m id} {s : InMemoryStorage} {c : StorageCall}

/-- A value other than `Deleted` puts the id into the index once more. -/
lemma count_getUserOrders_set {v : PerpDexValue} (hv : v ≠ .deleted) :
    ((s.call (.set (.order user m id) v)).getUserOrders user m).count id =
      (s.getUserOrders user m).count id + 1 := by
  show ((s.trackSet (.order user m id) v).getUserOrders user m).count id = _
  rw [trackSet_order s user m id hv, getUserOrders_addOrderIndex, if_pos rfl, List.count_append]
  simp

/-- Other calls but a `delete` of the order leave its entries alone. -/
lemma count_getUserOrders_of_ne (hset : ∀ v, c = .set (.order user m id) v → v = .deleted)
    (hdelete : c ≠ .delete (.order user m id)) :
    ((s.call c).getUserOrders user m).count id = (s.getUserOrders user m).count id := by
  cases c with
  | set l v =>
    show ((s.trackSet l v).getUserOrders user m).count id = _
    cases l with
    | order user' m' id' =>
      by_cases hv : v = .deleted
      · subst hv
        rfl
      · rw [trackSet_order s user' m' id' hv, getUserOrders_addOrderIndex]
        split_ifs with hkey
        · obtain ⟨rfl, rfl⟩ := Prod.mk.inj hkey
          have hid : id ≠ id' := fun h => hv (hset v (by rw [h]))
          rw [List.count_append, List.count_singleton]
          simp [hid.symm]
        · rfl
    | _ => rfl
  | delete l =>
    show ((s.trackDelete l).getUserOrders user m).count id = _
    cases l with
    | order user' m' id' =>
      show ((s.removeOrderIndex user' m' id').getUserOrders user m).count id = _
      rw [getUserOrders_removeOrderIndex]
      split_ifs with hkey
      · obtain ⟨rfl, rfl⟩ := Prod.mk.inj hkey
        have hid : id ≠ id' := fun h => hdelete (by rw [h])
        exact List.count_filter (by simpa using hid)
      · rfl
    | _ => rfl

variable (user m id)

/-- An id is in the index at most once, and only if its location holds a value other than
`Deleted`, as long as the location is not disturbed. -/
theorem mirrored_iff :
    ((after calls).getUserOrders user m).count id ≤ 1 ∧
        (id ∈ (after calls).getUserOrders user m → (after calls).Present user m id) ↔
      ¬ Disturbed calls (.order user m id) := by
  induction calls using List.reverseRecOn with
  | nil =>
    refine ⟨fun _ => sinceAfter_nil, fun _ => ⟨?_, fun h => absurd h List.not_mem_nil⟩⟩
    show List.count id [] ≤ 1
    simp
  | append_singleton calls c ih =>
    have hmem := mem_getUserOrders_after calls user m id
    rw [after_append, mem_getUserOrders_call, present_call, Disturbed, sinceAfter_concat,
      ← Disturbed]
    by_cases hl : c.location = .order user m id
    · cases c with
      | set l v =>
        obtain rfl : l = .order user m id := hl
        -- a set of the location disturbs it if it is tracked, whatever happened before
        have hdisturbed : (Tracked calls (.order user m id) ∧
            ∃ v', StorageCall.set (.order user m id) v = .set (.order user m id) v') ∨
              (Disturbed calls (.order user m id) ∧
                StorageCall.set (.order user m id) v ≠ .delete (.order user m id)) ↔
            id ∈ (after calls).getUserOrders user m := by
          rw [hmem]
          constructor
          · intro h
            exact h.elim (fun h => h.1) fun h => h.1.tracked
          · intro h
            exact .inl ⟨h, v, rfl⟩
        rw [hdisturbed, ← List.count_pos_iff]
        by_cases hv : v = .deleted
        · subst hv
          rw [count_getUserOrders_of_ne (by simp) (by simp)]
          have hunset : ¬ ∃ v', StorageCall.set (.order user m id) .deleted =
              .set (.order user m id) v' ∧ v' ≠ .deleted := by
            simp [eq_comm]
          simp only [hunset, StorageCall.location, ne_eq, reduceCtorEq, not_true,
            not_false_eq_true, and_true, and_false, false_or, or_false, imp_false]
          omega
        · rw [count_getUserOrders_set hv]
          constructor
          · omega
          · intro hcount
            exact ⟨by omega, fun _ => .inl ⟨v, rfl, hv⟩⟩
      | delete l =>
        obtain rfl : l = .order user m id := hl
        have hnot :
            ¬ id ∈ ((after calls).call (.delete (.order user m id))).getUserOrders user m := by
          rw [mem_getUserOrders_call]
          simp
        rw [List.count_eq_zero_of_not_mem hnot]
        simp
    · have hset : ∀ v, c ≠ .set (.order user m id) v := fun v h => hl (by rw [h]; rfl)
      have hdelete : c ≠ .delete (.order user m id) := fun h => hl (by rw [h]; rfl)
      rw [count_getUserOrders_of_ne (fun v h => absurd h (hset v)) hdelete]
      simp only [hset, hdelete, hl, ne_eq, not_false_eq_true, and_true, false_and, exists_false,
        false_or, and_false]
      exact ih

/-- The index mirrors the orders exactly after the histories that disturb no order, where a history
is any sequence of calls of `set` and `delete` on a new storage. -/
theorem mirrors_after_iff :
    Mirrors (after calls) ↔ ∀ user m id, ¬ Disturbed calls (.order user m id) := by
  constructor
  · intro h user m id
    refine (mirrored_iff calls user m id).mp ⟨?_, (h.mem user m id).mp⟩
    exact List.nodup_iff_count_le_one.mp (h.nodup user m) id
  · intro h
    have hindex := fun user m id => (mirrored_iff calls user m id).mpr (h user m id)
    have hnodup : ∀ user m, ((after calls).getUserOrders user m).Nodup := fun user m =>
      List.nodup_iff_count_le_one.mpr fun id => (hindex user m id).1
    have hmem : ∀ user m id,
        id ∈ (after calls).getUserOrders user m ↔ (after calls).Present user m id := by
      intro user m id
      refine ⟨(hindex user m id).2, ?_⟩
      intro ⟨v, hdata, hv⟩
      rw [mem_getUserOrders_after]
      exact ((after_data_iff calls _ v).mp hdata).tracked hv
    exact ⟨hnodup, hmem, count_getAllUserOrders hnodup hmem⟩

/-- An order that is marked as deleted, which is what a cancellation writes and what leaves the
index as it is. -/
def markedDeleted : List StorageCall :=
  placedInMarketOne ++ [.set (.order 7 1 5) .deleted]

/-- Its id stays in the index. -/
theorem not_mirrors_markedDeleted : ¬ Mirrors (after markedDeleted) := by
  intro h
  obtain ⟨v, hdata, hv⟩ := (h.mem 7 1 5).mp (by decide +kernel)
  have hdeleted : (after markedDeleted).data (.order 7 1 5) = some .deleted := by decide +kernel
  rw [hdeleted] at hdata
  exact hv (Option.some.inj hdata).symm

end History

end Pevm.PerpDex.InMemoryStorage
