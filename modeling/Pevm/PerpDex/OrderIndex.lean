import Pevm.Lib.Since
import Pevm.PerpDex.Batch
import Pevm.PerpDex.History

/-!
# The index of user orders

The in-memory storage keeps, beside its data, the ids of the orders of each user and
market. An id enters the index with any value that is set at its location, `Deleted` apart,
and leaves it with a `delete` only. So the index follows the history of calls in its own
way, and a cancellation of all orders, which reads nothing else, is right where the index
and the data agree.
-/
namespace List

/-- A replaced value is found under its own key, if there was one, and nowhere else. -/
lemma dlookup_kreplace {α β : Type*} [DecidableEq α] (a : α) (b : β)
    (l : List (Sigma fun _ : α => β)) (k : α) :
    (kreplace a b l).dlookup k =
      if k = a then (l.dlookup k).map (fun _ => b) else l.dlookup k := by
  unfold kreplace
  induction l with
  | nil => split_ifs <;> rfl
  | cons e l ih =>
    obtain ⟨key, value⟩ := e
    by_cases hkey : a = key
    · subst hkey
      rw [lookmap_cons_some (b := ⟨a, b⟩) _ _ (by simp)]
      split_ifs with hk
      · subst hk
        simp
      · rw [dlookup_cons_ne _ _ hk, dlookup_cons_ne _ _ hk]
    · rw [lookmap_cons_none _ _ (by simp [hkey])]
      by_cases hk : k = key
      · subst hk
        have hne : k ≠ a := fun h => hkey h.symm
        simp [hne]
      · rw [dlookup_cons_ne _ _ hk, dlookup_cons_ne _ _ hk, ih]

end List

namespace Pevm.PerpDex
open InMemoryStorage

/-- A call that changes the storage. -/
inductive StorageCall
  | set (location : PerpDexLocation) (value : PerpDexValue)
  | delete (location : PerpDexLocation)

namespace StorageCall

def location : StorageCall → PerpDexLocation
  | set l _ => l
  | delete l => l

/-- What the call leaves at its location. -/
def value : StorageCall → Option PerpDexValue
  | set _ v => some v
  | delete _ => none

end StorageCall

namespace InMemoryStorage

def call (s : InMemoryStorage) : StorageCall → InMemoryStorage
  | .set l v => s.set l v
  | .delete l => s.delete l

/-- The storage after a history of calls, from an empty one. -/
def after (calls : List StorageCall) : InMemoryStorage := calls.foldl call new

/-- The location holds an order, and not the mark of a deleted one. -/
def Live (s : InMemoryStorage) (user : Address) (m id : U64) : Prop :=
  ∃ o, s.data (.order user m id) = some (.order o)

lemma after_append (calls : List StorageCall) (c : StorageCall) :
    after (calls ++ [c]) = (after calls).call c := List.foldl_concat ..

lemma call_data (s : InMemoryStorage) (c : StorageCall) :
    (s.call c).data = Function.update s.data c.location c.value := by
  cases c with
  | set l v => exact s.set_data l v
  | delete l =>
    have hdata : (s.trackDelete l).data = s.data := by
      cases l with
      | order user m id =>
        show (s.removeOrderIndex user m id).data = s.data
        unfold removeOrderIndex
        split <;> rfl
      | _ => rfl
    show Function.update (s.trackDelete l).data l none = _
    rw [hdata]
    rfl

section Index
variable (s : InMemoryStorage) (user : Address) (m id : U64)

/-- A value other than `Deleted` enters the index. -/
lemma trackSet_order {v : PerpDexValue} (hv : v ≠ .deleted) :
    s.trackSet (.order user m id) v = s.addOrderIndex user m id := by
  cases v <;> simp_all [trackSet]

lemma getUserOrders_addOrderIndex (user' : Address) (m' id' : U64) :
    (s.addOrderIndex user' m' id').getUserOrders user m =
      if (user, m) = (user', m') then s.getUserOrders user m ++ [id'] else
        s.getUserOrders user m := by
  unfold getUserOrders addOrderIndex
  split_ifs with hkey
  · rw [hkey, AList.lookup_insert]
    rfl
  · rw [AList.lookup_insert_ne hkey]

lemma getUserOrders_removeOrderIndex (user' : Address) (m' id' : U64) :
    (s.removeOrderIndex user' m' id').getUserOrders user m =
      if (user, m) = (user', m') then (s.getUserOrders user m).filter (· ≠ id') else
        s.getUserOrders user m := by
  unfold getUserOrders removeOrderIndex
  cases hlist : s.userOrders.lookup (user', m') with
  | none =>
    split_ifs with hkey
    · rw [hkey, hlist]
      rfl
    · rfl
  | some orderList =>
    show ((List.kreplace _ _ s.userOrders.entries).dlookup (user, m)).getD [] = _
    rw [List.dlookup_kreplace]
    split_ifs with hkey
    · have hentry : s.userOrders.entries.dlookup (user', m') = some orderList := hlist
      rw [hkey, hentry, hlist]
      rfl
    · rfl

lemma mem_getUserOrders_addOrderIndex (user' : Address) (m' id' : U64) :
    id ∈ (s.addOrderIndex user' m' id').getUserOrders user m ↔
      id ∈ s.getUserOrders user m ∨ (user = user' ∧ m = m' ∧ id = id') := by
  rw [getUserOrders_addOrderIndex]
  split_ifs with hkey
  · obtain ⟨rfl, rfl⟩ := Prod.mk.inj hkey
    simp
  · have hne : ¬ (user = user' ∧ m = m' ∧ id = id') := fun h => hkey (by rw [h.1, h.2.1])
    simp [hne]

lemma mem_getUserOrders_removeOrderIndex (user' : Address) (m' id' : U64) :
    id ∈ (s.removeOrderIndex user' m' id').getUserOrders user m ↔
      id ∈ s.getUserOrders user m ∧ ¬ (user = user' ∧ m = m' ∧ id = id') := by
  rw [getUserOrders_removeOrderIndex]
  split_ifs with hkey
  · obtain ⟨rfl, rfl⟩ := Prod.mk.inj hkey
    simp
  · have hne : ¬ (user = user' ∧ m = m' ∧ id = id') := fun h => hkey (by rw [h.1, h.2.1])
    simp [hne]

lemma mem_getAllUserOrders :
    id ∈ s.getAllUserOrders user ↔ ∃ m, id ∈ s.getUserOrders user m := by
  unfold getAllUserOrders getUserOrders
  rw [List.mem_flatMap]
  constructor
  · intro ⟨e, he, hid⟩
    split_ifs at hid with huser
    · obtain ⟨⟨user', m⟩, ids⟩ := e
      obtain rfl : user' = user := huser
      have hlookup := AList.mem_lookup_iff.mpr he
      exact ⟨m, by rw [Option.mem_def.mp hlookup]; exact hid⟩
    · exact absurd hid List.not_mem_nil
  · intro ⟨m, hid⟩
    cases hlookup : s.userOrders.lookup (user, m) with
    | none =>
      rw [hlookup] at hid
      exact absurd hid List.not_mem_nil
    | some ids =>
      rw [hlookup] at hid
      exact ⟨⟨(user, m), ids⟩, AList.mem_lookup_iff.mp hlookup, by rw [if_pos rfl]; exact hid⟩

end Index

section History
open History
variable (calls : List StorageCall) (l : PerpDexLocation)

/-- A value other than `Deleted` was set at the location, and no `delete` came after it. -/
def Tracked : Prop :=
  Since (fun c => ∃ v, c = .set l v ∧ v ≠ .deleted) (fun c => c ≠ .delete l) calls

/-- The value was set at the location, and no call has touched the location after it. -/
def Holds (v : PerpDexValue) : Prop :=
  Since (fun c => c = .set l v) (fun c => c.location ≠ l) calls

/-- The data are what the last calls have left. -/
theorem after_data_iff (v : PerpDexValue) : (after calls).data l = some v ↔ Holds calls l v := by
  induction calls using List.reverseRecOn with
  | nil =>
    refine ⟨fun h => ?_, fun h => absurd h since_nil⟩
    cases h
  | append_singleton calls c ih =>
    rw [after_append, call_data, Holds, since_concat, ← Holds, ← ih]
    by_cases hl : c.location = l
    · subst hl
      rw [Function.update_self]
      cases c <;> simp [StorageCall.value, StorageCall.location]
    · have hne : l ≠ c.location := fun h => hl h.symm
      rw [Function.update_of_ne hne]
      have hset : c ≠ .set l v := fun h => hl (by rw [h]; rfl)
      simp [hset, hl]

lemma mem_getUserOrders_call (s : InMemoryStorage) (c : StorageCall) (user : Address) (m id : U64) :
    id ∈ (s.call c).getUserOrders user m ↔
      (∃ v, c = .set (.order user m id) v ∧ v ≠ .deleted) ∨
        (id ∈ s.getUserOrders user m ∧ c ≠ .delete (.order user m id)) := by
  cases c with
  | set l v =>
    show id ∈ (s.trackSet l v).getUserOrders user m ↔ _
    cases l with
    | order user' m' id' =>
      by_cases hv : v = .deleted
      · subst hv
        simp [trackSet]
      · rw [trackSet_order s user' m' id' hv, mem_getUserOrders_addOrderIndex]
        simp only [StorageCall.set.injEq, PerpDexLocation.order.injEq, ne_eq, reduceCtorEq,
          not_false_eq_true, and_true]
        constructor
        · intro h
          obtain h | ⟨rfl, rfl, rfl⟩ := h
          · exact .inr h
          · exact .inl ⟨v, ⟨⟨rfl, rfl, rfl⟩, rfl⟩, hv⟩
        · intro h
          obtain ⟨_, ⟨⟨rfl, rfl, rfl⟩, -⟩, -⟩ | h := h
          · exact .inr ⟨rfl, rfl, rfl⟩
          · exact .inl h
    | _ => simp [trackSet]
  | delete l =>
    show id ∈ (s.trackDelete l).getUserOrders user m ↔ _
    cases l with
    | order user' m' id' =>
      show id ∈ (s.removeOrderIndex user' m' id').getUserOrders user m ↔ _
      rw [mem_getUserOrders_removeOrderIndex]
      simp [eq_comm]
    | _ => simp [trackDelete]

/-- The index is what the history of calls has tracked. -/
theorem mem_getUserOrders_after (user : Address) (m id : U64) :
    id ∈ (after calls).getUserOrders user m ↔ Tracked calls (.order user m id) := by
  induction calls using List.reverseRecOn with
  | nil => exact ⟨fun h => absurd h List.not_mem_nil, fun h => absurd h since_nil⟩
  | append_singleton calls c ih =>
    rw [after_append, mem_getUserOrders_call, Tracked, since_concat, ← Tracked, ih]

variable {calls l} in
/-- A location that holds a value other than `Deleted` is tracked. -/
lemma Holds.tracked {v : PerpDexValue} (h : Holds calls l v) (hv : v ≠ .deleted) :
    Tracked calls l := by
  obtain ⟨before, e, after, hsplit, rfl, hafter⟩ := h
  refine ⟨before, _, after, hsplit, ⟨v, rfl, hv⟩, fun c hc hdelete => ?_⟩
  exact hafter c hc (by rw [hdelete]; rfl)

/-- The history leaves an order at the location, read off the calls alone. -/
def HoldsOrder : Prop := ∃ o, Holds calls l (.order o)

variable {calls l} in
lemma HoldsOrder.tracked (h : HoldsOrder calls l) : Tracked calls l := by
  obtain ⟨o, ho⟩ := h
  exact ho.tracked (by simp)

lemma live_after_iff (user : Address) (m id : U64) :
    (after calls).Live user m id ↔ HoldsOrder calls (.order user m id) := by
  simp only [Live, HoldsOrder, after_data_iff]

end History

end InMemoryStorage

section CancelAll

/-- The market filter of a cancellation lets the market through. -/
def Selected (filter : Option U64) (m : U64) : Prop := filter = none ∨ filter = some m

/-- The reported ids are those of the live orders of the user in the selected markets, and the
writes are a deletion of each of these orders and nothing else. -/
structure CancelsExactly (s : InMemoryStorage) (user : Address) (filter : Option U64)
    (orderIds : List U64) (writes : WriteSet) : Prop where
  ids : ∀ id, id ∈ orderIds ↔ ∃ m, Selected filter m ∧ s.Live user m id
  writes : ∀ w, w ∈ writes ↔
    ∃ m id, Selected filter m ∧ s.Live user m id ∧ w = (.order user m id, .deleted)

/-- For one market: what has been tracked there still holds an order. For all markets: only
market 0 holds orders, and holds one under every id that has been tracked anywhere. -/
def IndexAgrees (calls : List StorageCall) (user : Address) : Option U64 → Prop
  | some m => ∀ id, Tracked calls (.order user m id) → HoldsOrder calls (.order user m id)
  | none => ∀ m id, (HoldsOrder calls (.order user m id) → m = 0) ∧
      (Tracked calls (.order user m id) → HoldsOrder calls (.order user 0 id))

variable (calls : List StorageCall) (user : Address)

lemma cancelsExactly_some_iff (m : U64) :
    CancelsExactly (after calls) user (some m) ((after calls).getUserOrders user m)
        (((after calls).getUserOrders user m).map fun id => (.order user m id, .deleted)) ↔
      IndexAgrees calls user (some m) := by
  constructor
  · intro h id htracked
    obtain ⟨m', hm', hlive⟩ := (h.ids id).mp ((mem_getUserOrders_after calls user m id).mpr htracked)
    obtain rfl : m = m' := Option.some.inj (hm'.resolve_left (by simp))
    exact (live_after_iff calls user m id).mp hlive
  · intro h
    have hids : ∀ id, id ∈ (after calls).getUserOrders user m ↔ (after calls).Live user m id := by
      intro id
      rw [mem_getUserOrders_after, live_after_iff]
      exact ⟨h id, HoldsOrder.tracked⟩
    refine ⟨fun id => ?_, fun w => ?_⟩
    · rw [hids]
      constructor
      · intro hlive
        exact ⟨m, .inr rfl, hlive⟩
      · intro ⟨m', hm', hlive⟩
        obtain rfl : m = m' := Option.some.inj (hm'.resolve_left (by simp))
        exact hlive
    · rw [List.mem_map]
      constructor
      · intro ⟨id, hid, hw⟩
        exact ⟨m, id, .inr rfl, (hids id).mp hid, hw.symm⟩
      · intro ⟨m', id, hm', hlive, hw⟩
        obtain rfl : m = m' := Option.some.inj (hm'.resolve_left (by simp))
        exact ⟨id, (hids id).mpr hlive, hw.symm⟩

lemma cancelsExactly_none_iff :
    CancelsExactly (after calls) user none ((after calls).getAllUserOrders user)
        (((after calls).getAllUserOrders user).map fun id => (.order user 0 id, .deleted)) ↔
      IndexAgrees calls user none := by
  have hids : ∀ id, id ∈ (after calls).getAllUserOrders user ↔
      ∃ m, Tracked calls (.order user m id) := by
    intro id
    simp only [mem_getAllUserOrders, mem_getUserOrders_after]
  constructor
  · intro h m id
    constructor
    · intro hholds
      have hlive := (live_after_iff calls user m id).mpr hholds
      have hwrite := (h.writes (.order user m id, .deleted)).mpr ⟨m, id, .inl rfl, hlive, rfl⟩
      obtain ⟨id', -, hw⟩ := List.mem_map.mp hwrite
      exact (PerpDexLocation.order.inj (Prod.mk.inj hw).1).2.1.symm
    · intro htracked
      have hwrite := List.mem_map_of_mem (f := fun id => ((.order user 0 id, .deleted) :
        PerpDexLocation × PerpDexValue)) ((hids id).mpr ⟨m, htracked⟩)
      obtain ⟨m', id', -, hlive, hw⟩ := (h.writes _).mp hwrite
      obtain ⟨-, rfl, rfl⟩ := PerpDexLocation.order.inj (Prod.mk.inj hw).1
      exact (live_after_iff calls user 0 id).mp hlive
  · intro h
    refine ⟨fun id => ?_, fun w => ?_⟩
    · rw [hids]
      constructor
      · intro ⟨m, htracked⟩
        exact ⟨0, .inl rfl, (live_after_iff calls user 0 id).mpr ((h m id).2 htracked)⟩
      · intro ⟨m, _, hlive⟩
        exact ⟨m, ((live_after_iff calls user m id).mp hlive).tracked⟩
    · rw [List.mem_map]
      constructor
      · intro ⟨id, hid, hw⟩
        obtain ⟨m, htracked⟩ := (hids id).mp hid
        exact ⟨0, id, .inl rfl, (live_after_iff calls user 0 id).mpr ((h m id).2 htracked),
          hw.symm⟩
      · intro ⟨m, id, _, hlive, hw⟩
        have hholds := (live_after_iff calls user m id).mp hlive
        obtain rfl := (h m id).1 hholds
        exact ⟨id, (hids id).mpr ⟨0, hholds.tracked⟩, hw.symm⟩

/-- `CancelAll` deletes exactly what it reports where the index agrees with the data. The storage is
what any calls of `set` and `delete` have made of a new one. -/
theorem cancelAll_exact_iff (blockConfig : BlockConfig) (nextOrderId : U64) (tx : PerpDexTx)
    (filter : Option U64) (rs : ReadSet) (ws : WriteSet) :
    ∃ orderIds writes,
      (⟨after calls, blockConfig, nextOrderId⟩ : PerpDexExecutor InMemoryStorage).executeCancelAll
        tx filter rs ws = .ok ⟨.ordersCancelled orderIds, rs, ws ++ writes, nextOrderId⟩ ∧
      (CancelsExactly (after calls) tx.user filter orderIds writes ↔
        IndexAgrees calls tx.user filter) := by
  cases filter with
  | some m => exact ⟨_, _, rfl, cancelsExactly_some_iff calls tx.user m⟩
  | none => exact ⟨_, _, rfl, cancelsExactly_none_iff calls tx.user⟩

/-- An order of user 7 in market 1, under the id 5. -/
def placedInMarketOne : List StorageCall :=
  [.set (.order 7 1 5) (.order
    { orderType := .limit, side := .long, price := 1, size := 1, filled := 0, status := .open
      postOnly := true, reduceOnly := false, createdAt := 0, expiresAt := none })]

/-- Without a filter its id is reported, and the deletion goes to market 0. -/
theorem not_cancelsExactly_marketOne :
    (⟨after placedInMarketOne, ⟨0, 0⟩, 1⟩ : PerpDexExecutor InMemoryStorage).executeCancelAll
        ⟨7, [], 0, 0, 0, none⟩ none .new [] =
      .ok ⟨.ordersCancelled [5], .new, [] ++ [(.order 7 0 5, .deleted)], 1⟩ ∧
    ¬ CancelsExactly (after placedInMarketOne) 7 none [5] [(.order 7 0 5, .deleted)] := by
  refine ⟨rfl, fun h => ?_⟩
  obtain ⟨m, id, -, ⟨o, ho⟩, hw⟩ := (h.writes (.order 7 0 5, .deleted)).mp List.mem_cons_self
  obtain ⟨-, rfl, rfl⟩ := PerpDexLocation.order.inj (Prod.mk.inj hw).1
  have hempty : (after placedInMarketOne).data (.order 7 0 5) = none := by decide +kernel
  rw [hempty] at ho
  cases ho

end CancelAll

end Pevm.PerpDex
