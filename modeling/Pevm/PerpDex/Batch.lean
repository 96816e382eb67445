import Pevm.PerpDex.Placing

/-!
# Batches and their parts

A batch reads only the storage it started from. It therefore does what its parts do
one after the other as long as no operation of the second part reads a balance, a
position or an order index that the first part changed.
-/
namespace Pevm.PerpDex

/-- Write a write set in push order, so that the last write of a location counts. -/
def InMemoryStorage.writeAll (s : InMemoryStorage) (ws : WriteSet) : InMemoryStorage :=
  ws.foldl (fun s w => s.set w.1 w.2) s

namespace InMemoryStorage

@[simp] lemma writeAll_nil (s : InMemoryStorage) : s.writeAll [] = s := rfl

@[simp] lemma writeAll_cons (s : InMemoryStorage) (w : PerpDexLocation × PerpDexValue)
    (ws : WriteSet) : s.writeAll (w :: ws) = (s.set w.1 w.2).writeAll ws := rfl

@[simp] lemma writeAll_append (s : InMemoryStorage) (ws ws' : WriteSet) :
    s.writeAll (ws ++ ws') = (s.writeAll ws).writeAll ws' := List.foldl_append

lemma writeAll_data_of_forall_ne {l : PerpDexLocation} (ws : WriteSet)
    (h : ∀ w ∈ ws, w.1 ≠ l) (s : InMemoryStorage) : (s.writeAll ws).data l = s.data l := by
  induction ws generalizing s with
  | nil => rfl
  | cons w ws ih =>
    have hw : l ≠ w.1 := fun he => h w (by simp) he.symm
    rw [writeAll_cons, ih (fun v hv => h v (by simp [hv]))]
    simp [hw]

/-- Two storages that agree except on the nonce of `user`, which a batch raises once and two
transactions raise twice. -/
structure SameApartFromNonce (user : Address) (s t : InMemoryStorage) : Prop where
  data : ∀ l, l ≠ .userNonce user → s.data l = t.data l
  userOrders : s.userOrders = t.userOrders

lemma SameApartFromNonce.symm {user : Address} {s t : InMemoryStorage}
    (h : SameApartFromNonce user s t) : SameApartFromNonce user t s :=
  ⟨fun l hl => (h.data l hl).symm, h.userOrders.symm⟩

lemma SameApartFromNonce.trans {user : Address} {s t r : InMemoryStorage}
    (h : SameApartFromNonce user s t) (h' : SameApartFromNonce user t r) :
    SameApartFromNonce user s r :=
  ⟨fun l hl => (h.data l hl).trans (h'.data l hl), h.userOrders.trans h'.userOrders⟩

lemma SameApartFromNonce.set {user : Address} {s t : InMemoryStorage}
    (h : SameApartFromNonce user s t) (l : PerpDexLocation) (v : PerpDexValue) :
    SameApartFromNonce user (s.set l v) (t.set l v) where
  data l' hl' := by
    by_cases he : l' = l
    · subst he
      simp
    · simp [he, h.data l' hl']
  userOrders := by
    have htrack : ∀ a b : InMemoryStorage, a.userOrders = b.userOrders →
        (a.trackSet l v).userOrders = (b.trackSet l v).userOrders := by
      intro a b hab
      cases l <;> cases v <;> simp [trackSet, addOrderIndex, hab]
    exact htrack s t h.userOrders

lemma SameApartFromNonce.writeAll {user : Address} {s t : InMemoryStorage}
    (h : SameApartFromNonce user s t) (ws : WriteSet) :
    SameApartFromNonce user (s.writeAll ws) (t.writeAll ws) := by
  induction ws generalizing s t with
  | nil => exact h
  | cons w ws ih => exact ih (h.set w.1 w.2)

lemma sameApartFromNonce_set_nonce (user : Address) (s : InMemoryStorage) (v : PerpDexValue) :
    SameApartFromNonce user s (s.set (.userNonce user) v) where
  data l hl := by simp [hl]
  userOrders := by cases v <;> rfl

end InMemoryStorage

namespace PerpDexExecutor
open Fallible InMemoryStorage

/-- The locations that an operation of `user` may write, the nonce aside. -/
def OwnLocation (user : Address) : PerpDexLocation → Prop
  | .balance u a => u = user ∧ a = usdcAssetId
  | .position u _ => u = user
  | .order u _ _ => u = user
  | _ => False

section Own
variable {S : Type} [PerpDexStorage S] {ex : PerpDexExecutor S} {tx : PerpDexTx}

lemma executePlaceOrder_own {m : U64} {t : OrderType} {side : Side} {price size : U256}
    {leverage : U8} {po ro : Bool} {exp : Option U64} :
    Post (ex.executePlaceOrder tx m t side price size leverage po ro exp .new [])
      fun out => ∀ w ∈ out.writeSet, OwnLocation tx.user w.1 := by
  intro out hout w hw
  obtain ⟨-, balance, position, market, fill, -, -, -, -, -, rfl⟩ :=
    (executePlaceOrder_ok_iff ..).mp hout
  rcases List.mem_append.mp hw with hw | hw
  · rw [restingWrites_location hw]
    exact rfl
  · rcases fillWrites_location hw with h | h
    · rw [h]
      exact rfl
    · rw [h]
      exact ⟨rfl, rfl⟩

lemma executeAdjustMargin_own {m : U64} {amount : U256} :
    Post (ex.executeAdjustMargin tx m amount .new [])
      fun out => ∀ w ∈ out.writeSet, OwnLocation tx.user w.1 := by
  intro out hout w hw
  obtain ⟨balance, pos, -, -, -, hwrites⟩ := executeAdjustMargin_ok hout
  rw [hwrites, List.mem_cons, List.mem_singleton] at hw
  rcases hw with rfl | rfl
  · exact rfl
  · exact ⟨rfl, rfl⟩

/-- An operation writes only locations of its user. -/
theorem executeOperation_own (op : Operation) :
    Post (ex.executeOperation tx op .new [])
      fun out => ∀ w ∈ out.writeSet, OwnLocation tx.user w.1 := by
  cases op with
  | placeOrder => exact executePlaceOrder_own
  | cancelOrder m ids =>
    refine Post.pure fun w hw => ?_
    simp only [List.nil_append, List.mem_map] at hw
    obtain ⟨id, -, rfl⟩ := hw
    exact rfl
  | cancelAll m =>
    unfold executeOperation executeCancelAll
    dsimp only
    split
    · refine Post.pure fun w hw => ?_
      simp only [List.nil_append, List.mem_map] at hw
      obtain ⟨id, -, rfl⟩ := hw
      exact rfl
    · exact Post.error _
  | setLeverage m leverage =>
    unfold executeOperation executeSetLeverage
    exact Post.trivial.bind fun _ _ => Post.pure fun w hw => by simp at hw
  | adjustMargin => exact executeAdjustMargin_own

theorem Runs.own {ops : List Operation} {ws : WriteSet} {rs : List OperationResult}
    {ex' : PerpDexExecutor S} (h : Runs tx ex ops ws rs ex') :
    ∀ w ∈ ws, OwnLocation tx.user w.1 :=
  h.forall_writes fun _ op => executeOperation_own op

end Own

def withStorage (ex : PerpDexExecutor InMemoryStorage) (s : InMemoryStorage) :
    PerpDexExecutor InMemoryStorage := { ex with storage := s }

/-- Execute a transaction and write its write set, if it succeeds. -/
def commit (ex : PerpDexExecutor InMemoryStorage) (tx : PerpDexTx) :
    Option (PerpDexExecutor InMemoryStorage) :=
  match ex.execute tx with
  | (.success _ ws _ _, ex') => some (ex'.withStorage (ex'.storage.writeAll ws))
  | _ => none

/-- Whatever the position is, nothing of the order is filled: it has a stop, it is post-only, or it
does not cross the mark price. -/
def Rests (market : MarketData) (t : OrderType) (side : Side) (price : U256)
    (postOnly : Bool) : Prop :=
  t = .stopLimit ∨ t = .stopMarket ∨ t = .limit ∧ (postOnly = true ∨
    ¬ match side with
      | .long => market.markPrice ≤ price
      | .short => market.markPrice ≥ price)

lemma Rests.matchOrder_eq {market : MarketData} {t : OrderType} {side : Side} {price : U256}
    {postOnly : Bool} (h : Rests market t side price postOnly) (size : U256) (reduceOnly : Bool)
    (position : Option PositionData) :
    matchOrder t side price size postOnly reduceOnly market position = .ok (0, 0) := by
  rcases h with rfl | rfl | ⟨rfl, rfl | hcross⟩
  · rfl
  · rfl
  · rfl
  · cases postOnly with
    | true => rfl
    | false => cases side <;> simp_all [matchOrder, executeLimitOrder, pure, Except.pure]

/-- The balance covers the margin, and the position can be read, which an order asks for even when
it rests. -/
def Covers (ex : PerpDexExecutor InMemoryStorage) (user : Address) (m : U64)
    (required : U256) : Prop :=
  (∃ c, ex.balanceOf user usdcAssetId = .ok c ∧ required ≤ c) ∧ ∃ p, ex.positionOf user m = .ok p

/-- The operation finds in both storages what it reads of its user, or it is an order that
rests in both. -/
def SameView (user : Address) (a b : PerpDexExecutor InMemoryStorage) : Operation → Prop
  | .placeOrder m t side price size leverage postOnly .. =>
      a.balanceOf user usdcAssetId = b.balanceOf user usdcAssetId ∧
          a.positionOf user m = b.positionOf user m ∨
        (∃ market, a.marketOf m = .ok market ∧ Rests market t side price postOnly) ∧
          a.Covers user m (calculateRequiredMargin price size leverage) ∧
          b.Covers user m (calculateRequiredMargin price size leverage)
  | .adjustMargin m _ =>
      a.balanceOf user usdcAssetId = b.balanceOf user usdcAssetId ∧
        a.positionOf user m = b.positionOf user m
  | .cancelAll (some m) => a.storage.getUserOrders user m = b.storage.getUserOrders user m
  | .cancelAll none => a.storage.getAllUserOrders user = b.storage.getAllUserOrders user
  | .cancelOrder .. | .setLeverage .. => True

variable {a b : PerpDexExecutor InMemoryStorage} {tx : PerpDexTx}

lemma executePlaceOrder_of_rests {ex : PerpDexExecutor InMemoryStorage} {m : U64}
    {t : OrderType} {side : Side} {price size : U256} {leverage : U8} {postOnly : Bool}
    {market : MarketData} (hm : ex.marketOf m = .ok market)
    (hrests : Rests market t side price postOnly)
    (hcovers : ex.Covers tx.user m (calculateRequiredMargin price size leverage))
    (reduceOnly : Bool) (expiresAt : Option U64) :
    ex.executePlaceOrder tx m t side price size leverage postOnly reduceOnly expiresAt .new [] =
      (checkLeverage leverage).map fun _ =>
        ⟨.orderPlaced ex.nextOrderId 0, .new,
          if size > 0 then
            [(.order tx.user m ex.nextOrderId, .order
              { orderType := t, side, price, size, filled := 0, status := .open
                postOnly, reduceOnly, createdAt := ex.blockConfig.timestamp, expiresAt })]
          else [], ex.nextOrderId + 1⟩ := by
  obtain ⟨⟨c, hc, hle⟩, p, hp⟩ := hcovers
  have hlt : ¬ c < calculateRequiredMargin price size leverage := BitVec.not_lt.mpr hle
  simp only [executePlaceOrder, readBalance_eq, readPosition_eq, readMarket_eq, hc, hp, hm]
  cases checkLeverage leverage with
  | error e => rfl
  | ok _ => simp [Except.map, hlt, hrests.matchOrder_eq, pure, Except.pure]

/-- Executors that differ in nothing the operation reads execute it alike. -/
lemma executeOperation_congr {op : Operation} (hid : a.nextOrderId = b.nextOrderId)
    (hcfg : a.blockConfig = b.blockConfig)
    (hmarket : ∀ m, a.storage.data (.marketState m) = b.storage.data (.marketState m))
    (hview : SameView tx.user a b op) :
    a.executeOperation tx op .new [] = b.executeOperation tx op .new [] := by
  have hm : ∀ m, a.marketOf m = b.marketOf m := by
    intro m
    simp only [marketOf, readMarket, readLocation, PerpDexStorage.get, hmarket m, defaultMarket,
      hcfg]
  cases op with
  | placeOrder m =>
    rcases hview with ⟨hb, hp⟩ | ⟨⟨market, hmarket, hrests⟩, ha, hb⟩
    · exact executeOperation_of_sameReads hid hcfg ⟨hb, hp, hm m⟩
    · simp only [executeOperation, executePlaceOrder_of_rests hmarket hrests ha,
        executePlaceOrder_of_rests ((hm m).symm.trans hmarket) hrests hb, hid, hcfg]
  | cancelOrder => exact executeOperation_of_sameReads hid hcfg trivial
  | cancelAll m =>
    refine executeOperation_of_sameReads hid hcfg ?_
    cases m with
    | some m => exact congrArg Except.ok hview
    | none => exact congrArg Except.ok hview
  | setLeverage => exact executeOperation_of_sameReads hid hcfg trivial
  | adjustMargin => exact executeOperation_of_sameReads hid hcfg hview

lemma balanceOf_congr (user : Address) (h : a.storage = b.storage) :
    a.balanceOf user usdcAssetId = b.balanceOf user usdcAssetId := by
  unfold balanceOf readBalance readLocation
  rw [h]

lemma positionOf_congr (user : Address) (m : U64) (h : a.storage = b.storage) :
    a.positionOf user m = b.positionOf user m := by
  unfold positionOf readPosition readLocation
  rw [h]

lemma marketOf_congr (m : U64) (h : a.storage = b.storage)
    (hcfg : a.blockConfig = b.blockConfig) : a.marketOf m = b.marketOf m := by
  unfold marketOf readMarket readLocation defaultMarket
  rw [h, hcfg]

lemma Covers.of_storage_eq {user : Address} {m : U64} {required : U256}
    (h : a.storage = b.storage) (hc : b.Covers user m required) : a.Covers user m required := by
  unfold Covers
  rw [balanceOf_congr user h, positionOf_congr user m h]
  exact hc

/-- What an operation reads of its user depends on the storage alone. -/
lemma SameView.of_storage_eq {user : Address} {a' b' : PerpDexExecutor InMemoryStorage}
    {op : Operation} (ha : a'.storage = a.storage) (hcfg : a'.blockConfig = a.blockConfig)
    (hb : b'.storage = b.storage) (h : SameView user a b op) : SameView user a' b' op := by
  cases op with
  | placeOrder m =>
    rcases h with ⟨hbal, hpos⟩ | ⟨⟨market, hmarket, hrests⟩, hca, hcb⟩
    · left
      exact ⟨by rw [balanceOf_congr user ha, balanceOf_congr user hb, hbal],
        by rw [positionOf_congr user m ha, positionOf_congr user m hb, hpos]⟩
    · right
      exact ⟨⟨market, (marketOf_congr m ha hcfg).trans hmarket, hrests⟩, hca.of_storage_eq ha,
        hcb.of_storage_eq hb⟩
  | cancelOrder => trivial
  | cancelAll m =>
    cases m with
    | some m =>
      change a'.storage.getUserOrders user m = b'.storage.getUserOrders user m
      rw [ha, hb]
      exact h
    | none =>
      change a'.storage.getAllUserOrders user = b'.storage.getAllUserOrders user
      rw [ha, hb]
      exact h
  | setLeverage => trivial
  | adjustMargin m =>
    exact ⟨by rw [balanceOf_congr user ha, balanceOf_congr user hb, h.1],
      by rw [positionOf_congr user m ha, positionOf_congr user m hb, h.2]⟩

lemma Runs.congr_view (b : PerpDexExecutor InMemoryStorage) {ops : List Operation}
    {ws : WriteSet} {rs : List OperationResult} {a' : PerpDexExecutor InMemoryStorage}
    (h : Runs tx a ops ws rs a') (hid : a.nextOrderId = b.nextOrderId)
    (hcfg : a.blockConfig = b.blockConfig)
    (hmarket : ∀ m, a.storage.data (.marketState m) = b.storage.data (.marketState m))
    (hview : ∀ op ∈ ops, SameView tx.user a b op) :
    Runs tx b ops ws rs (a'.withStorage b.storage) := by
  induction h generalizing b with
  | @nil a =>
    have hb : a.withStorage b.storage = b := by
      cases a
      cases b
      simp_all [withStorage]
    rw [hb]
    exact .nil
  | cons hop _ ih =>
    rw [executeOperation_congr hid hcfg hmarket (hview _ (by simp))] at hop
    exact .cons hop (ih (b.withNextOrderId _) rfl hcfg hmarket
      fun op hmem => (hview op (by simp [hmem])).of_storage_eq rfl rfl rfl)

/-- The operations of a transaction see nothing of it but its user. -/
lemma Runs.congr_user {a a' : PerpDexExecutor InMemoryStorage} {ops : List Operation}
    {ws : WriteSet} {rs : List OperationResult} (h : Runs tx a ops ws rs a') (tx' : PerpDexTx)
    (hu : tx'.user = tx.user) : Runs tx' a ops ws rs a' := by
  induction h with
  | nil => exact .nil
  | @cons a a' op ops out ws rs hop _ ih =>
    have hsame : a.executeOperation tx' op .new [] = a.executeOperation tx op .new [] := by
      cases op <;> simp only [executeOperation, executePlaceOrder, executeCancelOrder,
        executeCancelAll, executeSetLeverage, executeAdjustMargin, hu]
    exact .cons (hsame.trans hop) ih

lemma commit_of_runs (tx : PerpDexTx) {a a' : PerpDexExecutor InMemoryStorage} {w : WriteSet}
    {rs : List OperationResult} (hn : a.nonceOf tx.user = .ok tx.nonce)
    (h : Runs tx a tx.operations w rs a') :
    a.commit tx = some (a'.withStorage
      ((a.storage.writeAll w).set (.userNonce tx.user) (.nonce (tx.nonce + 1)))) := by
  have hg := execute_of_runs hn h
  simp only [commit, hg, writeAll_append, writeAll_cons, writeAll_nil, h.storage_eq.1]

lemma runs_of_commit {e : PerpDexExecutor InMemoryStorage} (h : a.commit tx = some e) :
    ∃ w rs a', a.nonceOf tx.user = .ok tx.nonce ∧ Runs tx a tx.operations w rs a' := by
  unfold commit at h
  split at h
  · rename_i r ws res flags a' heq
    obtain ⟨hn, -, w, hruns, -⟩ := runs_of_execute heq
    exact ⟨w, _, a', hn, hruns⟩
  · cases h

lemma nonceOf_set_nonce (s : InMemoryStorage) (user : Address) (n : U64) :
    (a.withStorage (s.set (.userNonce user) (.nonce n))).nonceOf user = .ok n := by
  have hget : (s.set (.userNonce user) (.nonce n)).data (.userNonce user) = some (.nonce n) := by
    simp
  unfold nonceOf readNonce readLocation
  rw [show PerpDexStorage.get (a.withStorage (s.set (.userNonce user) (.nonce n))).storage
    (.userNonce user) = .ok ((s.set (.userNonce user) (.nonce n)).data (.userNonce user)) from rfl,
    hget]
  rfl

/-- Committing `xs`, and then `ys` on what that left, ends in the storage of `e`. -/
def EqualsItsParts (ex e : PerpDexExecutor InMemoryStorage) (tx : PerpDexTx)
    (xs ys : List Operation) : Prop :=
  ∃ e₁ e₂, ex.commit { tx with operations := xs } = some e₁ ∧
    e₁.commit { tx with operations := ys, nonce := tx.nonce + 1 } = some e₂ ∧
    SameApartFromNonce tx.user e.storage e₂.storage

/-- A batch that succeeds is its first part, committed, followed by its second part, as long as no
operation of the second part reads what the first part changed. The ids of the orders that are
looked up have to be the same in the same order. -/
theorem equalsItsParts_of_sameView {ex e : PerpDexExecutor InMemoryStorage} {tx : PerpDexTx}
    {xs ys : List Operation} (hops : tx.operations = xs ++ ys) (h : ex.commit tx = some e)
    (hview : ∀ e₁, ex.commit { tx with operations := xs } = some e₁ →
      ∀ op ∈ ys, SameView tx.user ex e₁ op) : EqualsItsParts ex e tx xs ys := by
  obtain ⟨w, rs, ex', hn, hruns⟩ := runs_of_commit h
  have he := commit_of_runs tx hn hruns
  rw [h, Option.some.injEq] at he
  rw [hops] at hruns
  obtain ⟨wx, rx, ex₁, wy, ry, hx, hy, rfl, rfl⟩ := hruns.split
  let first : PerpDexTx := { tx with operations := xs }
  let second : PerpDexTx := { tx with operations := ys, nonce := tx.nonce + 1 }
  let between := ex₁.withStorage
    ((ex.storage.writeAll wx).set (.userNonce tx.user) (.nonce (tx.nonce + 1)))
  have hc₁ : ex.commit first = some between := commit_of_runs first hn (hx.congr_user first rfl)
  -- the first part writes no market
  have hmarket : ∀ m, ex₁.storage.data (.marketState m) =
      between.storage.data (.marketState m) := by
    intro m
    have hwx : ∀ w ∈ wx, w.1 ≠ .marketState m := by
      intro w hw heq
      have hown := hx.own w hw
      rw [heq] at hown
      exact hown
    rw [hx.storage_eq.1]
    simp [between, withStorage, writeAll_data_of_forall_ne wx hwx]
  have hy' := hy.congr_view between rfl rfl hmarket fun op hop =>
    (hview between hc₁ op hop).of_storage_eq hx.storage_eq.1 hx.storage_eq.2 rfl
  have hc₂ := commit_of_runs second (nonceOf_set_nonce _ tx.user (tx.nonce + 1))
    (hy'.congr_user second rfl)
  refine ⟨between, _, hc₁, hc₂, ?_⟩
  -- both sides write the same lists; only the nonce is written at different places
  have hbatch := (sameApartFromNonce_set_nonce tx.user (ex.storage.writeAll wx)
    (.nonce (tx.nonce + 1))).writeAll wy
  have hl := sameApartFromNonce_set_nonce tx.user ((ex.storage.writeAll wx).writeAll wy)
    (.nonce (tx.nonce + 1))
  have hr := sameApartFromNonce_set_nonce tx.user
    (((ex.storage.writeAll wx).set (.userNonce tx.user) (.nonce (tx.nonce + 1))).writeAll wy)
    (.nonce (second.nonce + 1))
  rw [he]
  simp only [withStorage, writeAll_append]
  exact hl.symm.trans (hbatch.trans hr)

section Sample

def batchUser : Address := 1

/-- A balance of 100 beside a long position whose margin is 10. -/
def fundedExecutor : PerpDexExecutor InMemoryStorage :=
  .new ((InMemoryStorage.withBalances [(batchUser, usdcAssetId, 100)]).set (.position batchUser 1)
    (.position ⟨1, 1000, 10, 10, 0, 0⟩)) ⟨2000, 1⟩

def batchTx (ops : List Operation) : PerpDexTx := ⟨batchUser, ops, 200000, 5000, 0, none⟩

def restingOrder : Operation := .placeOrder 2 .limit .long 5 3 10 true false none

/-- A resting order changes nothing that adjusting a margin reads. -/
theorem equalsItsParts_restingOrder_adjustMargin :
    ∃ e, fundedExecutor.commit (batchTx [restingOrder, .adjustMargin 1 7]) = some e ∧
      EqualsItsParts fundedExecutor e (batchTx [restingOrder, .adjustMargin 1 7])
        [restingOrder] [.adjustMargin 1 7] := by
  refine ⟨_, rfl, equalsItsParts_of_sameView rfl rfl fun e₁ he₁ op hop => ?_⟩
  cases he₁
  rw [List.mem_singleton] at hop
  subst hop
  exact ⟨rfl, rfl⟩

/-- Of two margin adjustments in one batch the first is lost. -/
theorem not_equalsItsParts_adjustMargin_twice :
    ∃ e, fundedExecutor.commit (batchTx [.adjustMargin 1 5, .adjustMargin 1 7]) = some e ∧
      ¬ EqualsItsParts fundedExecutor e (batchTx [.adjustMargin 1 5, .adjustMargin 1 7])
        [.adjustMargin 1 5] [.adjustMargin 1 7] := by
  refine ⟨_, rfl, ?_⟩
  rintro ⟨e₁, e₂, h₁, h₂, hsame⟩
  cases h₁
  cases h₂
  have hbalance := hsame.data (.balance batchUser usdcAssetId) (by decide)
  revert hbalance
  decide

end Sample

end PerpDexExecutor

end Pevm.PerpDex
