import Pevm.PerpDex.OrderIndex
import Pevm.PerpDex.Placing

/-!
# Order ids across blocks

Each block has an executor of its own, and each executor counts its orders from 1. So the
id of an order says which order of its block it was, and nothing else: an order of a later
block meets the order that was the same one of an earlier block, if that one is of the same
user and market and still there.
-/
namespace Pevm.PerpDex
open InMemoryStorage

section Writes
variable (s : InMemoryStorage)

/-- An order is written where the storage holds an order by then, after the earlier writes of the
same set. -/
def Overwrites (ws : WriteSet) : Prop :=
  ∃ before user m id o after, ws = before ++ (.order user m id, .order o) :: after ∧
    (s.writeAll before).Live user m id

@[simp] lemma not_overwrites_nil : ¬ Overwrites s [] := by
  intro ⟨before, _, _, _, _, after, hsplit, _⟩
  simp at hsplit

lemma overwrites_cons (w : PerpDexLocation × PerpDexValue) (ws : WriteSet) :
    Overwrites s (w :: ws) ↔
      (∃ user m id o, w = (.order user m id, .order o) ∧ s.Live user m id) ∨
        Overwrites (s.set w.1 w.2) ws := by
  constructor
  · intro ⟨before, user, m, id, o, after, hsplit, hlive⟩
    cases before with
    | nil =>
      obtain ⟨hw, -⟩ := List.cons.inj hsplit
      exact .inl ⟨user, m, id, o, hw, hlive⟩
    | cons v before =>
      obtain ⟨hw, hws⟩ := List.cons.inj hsplit
      subst hw
      exact .inr ⟨before, user, m, id, o, after, hws, hlive⟩
  · intro h
    obtain ⟨user, m, id, o, hw, hlive⟩ | ⟨before, user, m, id, o, after, hws, hlive⟩ := h
    · exact ⟨[], user, m, id, o, ws, by rw [hw]; rfl, hlive⟩
    · exact ⟨w :: before, user, m, id, o, after, by rw [hws]; rfl, hlive⟩

lemma overwrites_append (ws ws' : WriteSet) :
    Overwrites s (ws ++ ws') ↔ Overwrites s ws ∨ Overwrites (s.writeAll ws) ws' := by
  induction ws generalizing s with
  | nil => simp
  | cons w ws ih =>
    rw [List.cons_append, overwrites_cons, overwrites_cons, ih, writeAll_cons, or_assoc]

/-- Writes that set no order overwrite none. -/
lemma not_overwrites_of_forall_ne {ws : WriteSet} (h : ∀ w ∈ ws, ∀ o, w.2 ≠ .order o) :
    ¬ Overwrites s ws := by
  intro ⟨before, user, m, id, o, after, hsplit, _⟩
  exact h (.order user m id, .order o) (by rw [hsplit]; simp) o rfl

lemma live_set_iff (l : PerpDexLocation) (v : PerpDexValue) (user : Address) (m id : U64) :
    (s.set l v).Live user m id ↔
      (l = .order user m id ∧ ∃ o, v = .order o) ∨ (l ≠ .order user m id ∧ s.Live user m id) := by
  unfold Live
  rw [set_data]
  by_cases hl : l = .order user m id
  · simp [hl]
  · have hne : PerpDexLocation.order user m id ≠ l := fun h => hl h.symm
    simp [hl, Function.update_of_ne hne]

lemma live_writeAll_of_forall_ne {ws : WriteSet} {user : Address} {m id : U64}
    (h : ∀ w ∈ ws, w.1 ≠ .order user m id) :
    (s.writeAll ws).Live user m id ↔ s.Live user m id := by
  unfold Live
  rw [writeAll_data_of_forall_ne ws h]

/-- The deletions of a cancellation take its orders from the book. -/
lemma live_writeAll_deleted_iff (user : Address) (m' : U64) (ids : List U64) (m id : U64) :
    (s.writeAll (ids.map fun id => (.order user m' id, .deleted))).Live user m id ↔
      s.Live user m id ∧ ¬ (m = m' ∧ id ∈ ids) := by
  induction ids generalizing s with
  | nil => simp
  | cons i ids ih =>
    rw [List.map_cons, writeAll_cons, ih, live_set_iff]
    have hhere : PerpDexLocation.order user m' i = .order user m id ↔ m = m' ∧ id = i := by
      simp [eq_comm]
    rw [ne_eq, hhere, List.mem_cons]
    simp only [reduceCtorEq, exists_false, and_false, false_or]
    constructor
    · intro ⟨⟨hne, hlive⟩, hids⟩
      refine ⟨hlive, fun hin => ?_⟩
      obtain ⟨hm, hid | hid⟩ := hin
      · exact hne ⟨hm, hid⟩
      · exact hids ⟨hm, hid⟩
    · intro ⟨hlive, hids⟩
      exact ⟨⟨fun hin => hids ⟨hin.1, .inl hin.2⟩, hlive⟩, fun hin => hids ⟨hin.1, .inr hin.2⟩⟩

end Writes

namespace PerpDexExecutor
open Fallible

section Book
variable {S : Type} [PerpDexStorage S] (ex : PerpDexExecutor S) (tx : PerpDexTx)

/-- The operation is an order of which nothing fills, so that all of it goes to the book. -/
def LeavesOrder : Operation → U64 → Prop
  | .placeOrder m t side price size _ postOnly _ _, m' => m' = m ∧ 0 < size ∧
      ∃ market, ex.marketOf m = .ok market ∧ fillPriceOf market t side price postOnly = none
  | _, _ => False

/-- The operation is a cancellation of the order, by its id or by what the index has. -/
def Removes : Operation → U64 → U64 → Prop
  | .cancelOrder m ids, m', id => m' = m ∧ id ∈ ids
  | .cancelAll filter, m', id =>
      m' = filter.getD 0 ∧ ∃ ids, ex.foundOrders tx filter = .ok ids ∧ id ∈ ids
  | _, _, _ => False

/-- The orders of the user, by market and id, after an operation that is accepted. -/
def bookAfter (op : Operation) (n : U64) (book : U64 → U64 → Prop) : U64 → U64 → Prop :=
  fun m id => (ex.LeavesOrder op m ∧ id = n) ∨ (book m id ∧ ¬ ex.Removes tx op m id)

/-- Numbered from `n` on, each order that goes to the book finds its number free in its market. -/
def IdsFresh : ℕ → List Operation → (U64 → U64 → Prop) → Prop
  | _, [], _ => True
  | n, op :: ops, book =>
      (∀ m, ex.LeavesOrder op m → ¬ book m (BitVec.ofNat 64 n)) ∧
        IdsFresh (n + if op.isPlaceOrder then 1 else 0) ops
          (ex.bookAfter tx op (BitVec.ofNat 64 n) book)

@[simp] lemma idsFresh_withNextOrderId (id : U64) (n : ℕ) (ops : List Operation)
    (book : U64 → U64 → Prop) :
    (ex.withNextOrderId id).IdsFresh tx n ops book ↔ ex.IdsFresh tx n ops book := by
  induction ops generalizing n book with
  | nil => exact Iff.rfl
  | cons op ops ih =>
    have hleaves : (ex.withNextOrderId id).LeavesOrder op = ex.LeavesOrder op := by
      cases op <;> rfl
    have hbook : (ex.withNextOrderId id).bookAfter tx op = ex.bookAfter tx op := by
      cases op <;> rfl
    rw [IdsFresh, IdsFresh, hleaves, hbook, ih]

/-- What an accepted operation does to the orders in the book: when it overwrites one, and which are
there after it. -/
structure BookSpec (op : Operation) (ws : WriteSet) (s : InMemoryStorage) : Prop where
  overwrites : Overwrites s ws ↔ ∃ m, ex.LeavesOrder op m ∧ s.Live tx.user m ex.nextOrderId
  live : (s.writeAll ws).Live tx.user = ex.bookAfter tx op ex.nextOrderId (s.Live tx.user)

variable {ex tx}

/-- Where no order is set or deleted, the book stays as it is. -/
lemma bookSpec_of_no_order {op : Operation} {ws : WriteSet}
    (hleaves : ∀ m, ¬ ex.LeavesOrder op m) (hremoves : ∀ m id, ¬ ex.Removes tx op m id)
    (hws : ∀ w ∈ ws, ∀ user m id, w.1 ≠ .order user m id) (hvalue : ∀ w ∈ ws, ∀ o, w.2 ≠ .order o)
    (s : InMemoryStorage) : ex.BookSpec tx op ws s where
  overwrites := by
    constructor
    · intro h
      exact absurd h (not_overwrites_of_forall_ne s hvalue)
    · intro ⟨m, hm, _⟩
      exact absurd hm (hleaves m)
  live := by
    funext m id
    rw [live_writeAll_of_forall_ne s fun w hw => hws w hw tx.user m id]
    simp [bookAfter, hleaves, hremoves]

lemma bookSpec_cancel {op : Operation} {m' : U64} {ids : List U64}
    (hleaves : ∀ m, ¬ ex.LeavesOrder op m)
    (hremoves : ∀ m id, ex.Removes tx op m id ↔ m = m' ∧ id ∈ ids) (s : InMemoryStorage) :
    ex.BookSpec tx op (ids.map fun id => (.order tx.user m' id, .deleted)) s where
  overwrites := by
    constructor
    · intro h
      refine absurd h (not_overwrites_of_forall_ne s fun w hw o => ?_)
      obtain ⟨id, -, rfl⟩ := List.mem_map.mp hw
      simp
    · intro ⟨m, hm, _⟩
      exact absurd hm (hleaves m)
  live := by
    funext m id
    rw [live_writeAll_deleted_iff]
    simp [bookAfter, hleaves, hremoves]

lemma bookSpec_order {op : Operation} {m' : U64} (o : OrderData)
    (hleaves : ∀ m, ex.LeavesOrder op m ↔ m = m') (hremoves : ∀ m id, ¬ ex.Removes tx op m id)
    (s : InMemoryStorage) :
    ex.BookSpec tx op [(.order tx.user m' ex.nextOrderId, .order o)] s where
  overwrites := by
    rw [overwrites_cons]
    constructor
    · intro h
      obtain ⟨user, m, id, o', hw, hlive⟩ | h := h
      · obtain ⟨rfl, rfl, rfl⟩ := PerpDexLocation.order.inj (Prod.mk.inj hw).1
        exact ⟨_, (hleaves _).mpr rfl, hlive⟩
      · exact absurd h (not_overwrites_nil _)
    · intro ⟨m, hm, hlive⟩
      obtain rfl := (hleaves m).mp hm
      exact .inl ⟨_, _, _, o, rfl, hlive⟩
  live := by
    funext m id
    rw [writeAll_cons, writeAll_nil, live_set_iff]
    simp only [bookAfter, hleaves, hremoves, PerpDexLocation.order.injEq, true_and,
      PerpDexValue.order.injEq, exists_eq', and_true, not_false_eq_true, ne_eq, eq_iff_iff]
    constructor
    · intro h
      obtain ⟨hm, hid⟩ | ⟨-, hlive⟩ := h
      · exact .inl ⟨hm.symm, hid.symm⟩
      · exact .inr hlive
    · intro h
      by_cases hhere : m' = m ∧ ex.nextOrderId = id
      · exact .inl hhere
      · refine .inr ⟨hhere, h.resolve_left fun h => hhere ⟨h.1.symm, h.2.symm⟩⟩

/-- What does not fill goes to the book; what fills, fills in full. -/
lemma bookSpec_placeOrder {m : U64} {t : OrderType} {side : Side} {price size : U256}
    {postOnly reduceOnly : Bool} {position : Option PositionData} {market : MarketData}
    {fill : U256 × U256} (leverage : U8) (expiresAt : Option U64) (balance : U256)
    (hmarket : ex.marketOf m = .ok market)
    (hmatch : matchOrder t side price size postOnly reduceOnly market position = .ok fill)
    (s : InMemoryStorage) :
    ex.BookSpec tx (.placeOrder m t side price size leverage postOnly reduceOnly expiresAt)
      (ex.restingWrites tx m t side price size postOnly reduceOnly expiresAt fill.1 ++
        fillWrites tx m side price size leverage balance position fill) s := by
  have hleaves : ∀ m', ex.LeavesOrder
      (.placeOrder m t side price size leverage postOnly reduceOnly expiresAt) m' ↔
        m' = m ∧ 0 < size ∧ fillPriceOf market t side price postOnly = none := by
    intro m'
    simp [LeavesOrder, hmarket]
  obtain ⟨hprice, rfl⟩ | ⟨fillPrice, hprice, rfl, -⟩ := matchOrder_ok_iff.mp hmatch
  · have hfill : fillWrites tx m side price size leverage balance position (0, 0) = [] := by
      simp [fillWrites]
    rw [hfill, List.append_nil]
    unfold restingWrites
    by_cases hsize : size - (0 : U256) > 0
    · rw [if_pos hsize]
      have hpos : 0 < size := by simpa using hsize
      exact bookSpec_order _
        (fun m' => (hleaves m').trans ⟨fun h => h.1, fun h => ⟨h, hpos, hprice⟩⟩)
        (fun _ _ => by simp [Removes]) s
    · rw [if_neg hsize]
      have hzero : ¬ 0 < size := by simpa using hsize
      exact bookSpec_of_no_order (fun m' h => hzero ((hleaves m').mp h).2.1)
        (fun _ _ => by simp [Removes]) (by simp) (by simp) s
  · have hrest :
        ex.restingWrites tx m t side price size postOnly reduceOnly expiresAt size = [] := by
      simp [restingWrites]
    have hwrites : ∀ w ∈ fillWrites tx m side price size leverage balance position
        (size, fillPrice), (∀ user m' id, w.1 ≠ .order user m' id) ∧ ∀ o, w.2 ≠ .order o := by
      intro w hw
      unfold fillWrites at hw
      split_ifs at hw with hpos
      · simp only [List.mem_cons, List.not_mem_nil, or_false] at hw
        obtain rfl | rfl := hw
        · simp
        · simp
      · simp at hw
    rw [hrest, List.nil_append]
    exact bookSpec_of_no_order (fun m' => by simp [hleaves, hprice]) (fun _ _ => by simp [Removes])
      (fun w hw => (hwrites w hw).1) (fun w hw => (hwrites w hw).2) s

/-- Every accepted operation does to the orders of its user what the book says, and nothing else. -/
theorem executeOperation_book {op : Operation} {out : Outcome}
    (h : ex.executeOperation tx op .new [] = .ok out) (s : InMemoryStorage) :
    ex.BookSpec tx op out.writeSet s := by
  cases op with
  | placeOrder m t side price size leverage postOnly reduceOnly expiresAt =>
    obtain ⟨-, balance, position, market, fill, -, -, hmarket, -, hmatch, rfl⟩ :=
      (ex.executePlaceOrder_ok_iff tx ..).mp h
    exact bookSpec_placeOrder leverage expiresAt balance hmarket hmatch s
  | cancelOrder m ids =>
    obtain rfl := Except.ok.inj h
    exact bookSpec_cancel (fun _ => by simp [LeavesOrder]) (fun _ _ => Iff.rfl) s
  | cancelAll filter =>
    rw [executeOperation, executeCancelAll_eq] at h
    cases hfound : ex.foundOrders tx filter with
    | error e =>
      rw [hfound] at h
      cases h
    | ok ids =>
      rw [hfound] at h
      obtain rfl := Except.ok.inj h
      exact bookSpec_cancel (fun _ => by simp [LeavesOrder]) (fun m id => by simp [Removes, hfound]) s
  | setLeverage m leverage =>
    obtain ⟨_, -, hout⟩ := bind_eq_ok.mp h
    obtain rfl := Except.ok.inj hout
    exact bookSpec_of_no_order (fun _ => by simp [LeavesOrder]) (fun _ _ => by simp [Removes])
      (by simp) (by simp) s
  | adjustMargin m amount =>
    rw [executeOperation] at h
    unfold executeAdjustMargin at h
    obtain ⟨⟨balance, rs⟩, -, h⟩ := bind_eq_ok.mp h
    dsimp only at h
    by_cases hlt : amount > balance
    · rw [if_pos hlt] at h
      cases h
    · rw [if_neg hlt] at h
      obtain ⟨⟨position, rs⟩, -, h⟩ := bind_eq_ok.mp h
      cases position with
      | none => cases h
      | some pos =>
        obtain rfl := Except.ok.inj h
        exact bookSpec_of_no_order (fun _ => by simp [LeavesOrder]) (fun _ _ => by simp [Removes])
          (by simp) (by simp) s

/-- The orders of a transaction that succeeds overwrite none exactly when their numbers are free. -/
theorem Runs.overwrites_iff {ops : List Operation} {ws : WriteSet} {rs : List OperationResult}
    {ex' : PerpDexExecutor S} (h : Runs tx ex ops ws rs ex') {n : ℕ}
    (hid : ex.nextOrderId = BitVec.ofNat 64 n) (s : InMemoryStorage) :
    ¬ Overwrites s ws ↔ ex.IdsFresh tx n ops (s.Live tx.user) := by
  induction h generalizing n s with
  | nil => simp [IdsFresh]
  | @cons ex ex' op ops out ws rs hop _ ih =>
    have hspec := executeOperation_book hop s
    have hnext := (executeOperation_places op out hop).nextOrderId
    have hid' : (ex.withNextOrderId out.nextOrderId).nextOrderId =
        BitVec.ofNat 64 (n + if op.isPlaceOrder then 1 else 0) := by
      rw [withNextOrderId_nextOrderId, hnext, hid, BitVec.ofNat_add]
      split_ifs <;> rfl
    rw [overwrites_append, not_or, hspec.overwrites, ih hid', hspec.live,
      idsFresh_withNextOrderId, IdsFresh, hid]
    simp only [not_exists, not_and]

/-- A transaction that succeeds overwrites no order exactly when its numbers are free. -/
theorem execute_overwrites_iff {n : ℕ} (hid : ex.nextOrderId = BitVec.ofNat 64 n)
    (s : InMemoryStorage) :
    (∀ rs ws res flags ex', ex.execute tx = (.success rs ws res flags, ex') → ¬ Overwrites s ws) ↔
      (ex.check tx = .ok () → ex.IdsFresh tx n tx.operations (s.Live tx.user)) := by
  have hnonce : ∀ w user v, ¬ Overwrites (s.writeAll w) [(.userNonce user, .nonce v)] := by
    intro w user v
    exact not_overwrites_of_forall_ne _ (by simp)
  constructor
  · intro h hcheck
    obtain ⟨ws, res, ex', hexecute⟩ := execute_of_check_ok hcheck
    have hkept := h _ _ _ _ _ hexecute
    obtain ⟨-, -, w, hruns, rfl⟩ := runs_of_execute hexecute
    rw [overwrites_append, not_or] at hkept
    exact (hruns.overwrites_iff hid s).mp hkept.1
  · intro h rs ws res flags ex' hexecute
    cases hcheck : ex.check tx with
    | error e =>
      have herror := execute_of_check_error hcheck
      rw [hexecute] at herror
      cases herror
    | ok u =>
      obtain ⟨-, -, w, hruns, rfl⟩ := runs_of_execute hexecute
      rw [overwrites_append, not_or]
      exact ⟨(hruns.overwrites_iff hid s).mpr (h hcheck), hnonce w _ _⟩

end Book

end PerpDexExecutor

/-- In a block a transaction is executed, or the write sets collected so far are written. -/
inductive BlockStep
  | execute (tx : PerpDexTx)
  | write

/-- A block of the exchange: its configuration and the calls made in it. -/
structure Block where
  config : BlockConfig
  steps : List BlockStep

/-- A block on its way: its executor, what its transactions have left to write, and how many
orders they have placed. -/
structure BlockState where
  executor : PerpDexExecutor InMemoryStorage
  pending : WriteSet
  orders : ℕ

namespace BlockState
open PerpDexExecutor

/-- A block starts with an executor of its own, whose counter begins anew over the storage that is
there. -/
def start (storage : InMemoryStorage) (config : BlockConfig) : BlockState :=
  ⟨.new storage config, [], 0⟩

/-- The storage as it is once everything collected so far is written. -/
def written (b : BlockState) : InMemoryStorage := b.executor.storage.writeAll b.pending

/-- The write set of a result, if it is a success; a refused transaction writes nothing. -/
def writesOf : VmExecutionResult → WriteSet
  | .success _ ws _ _ => ws
  | _ => []

/-- One call of a block: a transaction is executed, or the write sets collected so far are written.
-/
def step (b : BlockState) : BlockStep → BlockState
  | .execute tx =>
    { executor := (b.executor.execute tx).2
      pending := b.pending ++ writesOf (b.executor.execute tx).1
      orders := b.orders + b.executor.idsTaken tx }
  | .write => { b with executor := b.executor.withStorage b.written, pending := [] }

/-- The transactions of the steps, each with the state of the block that it meets. -/
def visits (b : BlockState) : List BlockStep → List (BlockState × PerpDexTx)
  | [] => []
  | .execute tx :: steps => (b, tx) :: (b.step (.execute tx)).visits steps
  | .write :: steps => (b.step .write).visits steps

def run (b : BlockState) (steps : List BlockStep) : BlockState := steps.foldl step b

/-- If the transaction succeeds, its orders overwrite none, neither stored nor pending. -/
def KeepsOrders (b : BlockState) (tx : PerpDexTx) : Prop :=
  ∀ rs ws res flags ex', b.executor.execute tx = (.success rs ws res flags, ex') →
    ¬ Overwrites b.written ws

/-- If the transaction passes its tests, then an order of it that goes to the book and is the
`n`-th of the block finds no order `n` of its user in its market. -/
def NumbersFree (b : BlockState) (tx : PerpDexTx) : Prop :=
  b.executor.check tx = .ok () →
    b.executor.IdsFresh tx (b.orders + 1) tx.operations (b.written.Live tx.user)

/-- The counter is one ahead of the orders that the block has placed, in 64 bits. -/
def Counts (b : BlockState) : Prop := b.executor.nextOrderId = BitVec.ofNat 64 (b.orders + 1)

lemma start_counts (storage : InMemoryStorage) (config : BlockConfig) :
    (start storage config).Counts := by
  show (1 : U64) = BitVec.ofNat 64 (0 + 1)
  rfl

lemma Counts.step {b : BlockState} (h : b.Counts) (s : BlockStep) : (b.step s).Counts := by
  cases s with
  | execute tx =>
    show (b.executor.execute tx).2.nextOrderId =
      BitVec.ofNat 64 (b.orders + b.executor.idsTaken tx + 1)
    rw [execute_counter, withNextOrderId_nextOrderId, h, ← BitVec.ofNat_add]
    congr 1
    omega
  | write => exact h

lemma counts_of_mem_visits {b : BlockState} (h : b.Counts) (steps : List BlockStep) :
    ∀ v ∈ b.visits steps, v.1.Counts := by
  induction steps generalizing b with
  | nil => simp [visits]
  | cons s steps ih =>
    cases s with
    | execute tx =>
      intro v hv
      rw [visits, List.mem_cons] at hv
      obtain rfl | hv := hv
      · exact h
      · exact ih (h.step _) v hv
    | write => exact ih (h.step _)

end BlockState

/-- What the transactions of a sequence of blocks meet. Each block starts from what the blocks
before it have written. -/
def blockVisits (storage : InMemoryStorage) : List Block → List (BlockState × PerpDexTx)
  | [] => []
  | block :: blocks =>
    (BlockState.start storage block.config).visits block.steps ++
      blockVisits ((BlockState.start storage block.config).run block.steps).written blocks

lemma counts_of_mem_blockVisits (storage : InMemoryStorage) (blocks : List Block) :
    ∀ v ∈ blockVisits storage blocks, v.1.Counts := by
  induction blocks generalizing storage with
  | nil => simp [blockVisits]
  | cons block blocks ih =>
    intro v hv
    rw [blockVisits, List.mem_append] at hv
    obtain hv | hv := hv
    · exact BlockState.counts_of_mem_visits (BlockState.start_counts _ _) _ v hv
    · exact ih _ v hv

/-- In a run of blocks no order is overwritten exactly when each order that goes to the book
finds the number that it has in its block free in its market. -/
theorem keepsOrders_iff_numbersFree (storage : InMemoryStorage) (blocks : List Block) :
    (∀ v ∈ blockVisits storage blocks, v.1.KeepsOrders v.2) ↔
      ∀ v ∈ blockVisits storage blocks, v.1.NumbersFree v.2 := by
  refine forall₂_congr fun v hv => ?_
  exact PerpDexExecutor.execute_overwrites_iff (counts_of_mem_blockVisits storage blocks v hv) _

section Sample
open PerpDexExecutor

/-- Two blocks with one resting order each, of one user and market. -/
def twoBlocks : List Block :=
  [⟨⟨0, 1⟩, [.execute restingTx, .write]⟩,
    ⟨⟨0, 2⟩, [.execute { restingTx with nonce := 1 }, .write]⟩]

/-- The order of the second block replaces that of the first. -/
theorem not_keepsOrders_twoBlocks :
    ¬ ∀ v ∈ blockVisits .new twoBlocks, v.1.KeepsOrders v.2 := by
  intro h
  have hsecond := h _ (List.mem_cons_of_mem _ List.mem_cons_self)
  exact hsecond _ _ _ _ _ rfl ⟨[], 1, 1, 1, _, _, rfl, _, rfl⟩

end Sample

end Pevm.PerpDex
