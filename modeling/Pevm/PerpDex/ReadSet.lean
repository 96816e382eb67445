import Pevm.PerpDex.Batch

/-!
# What a transaction reads, and what its read set says

The outcome of a transaction depends on the nonce and the balance of its user, on the positions
and markets its operations name, and on the order index. None of these locations is ever recorded
in the read set.
-/
namespace Pevm.PerpDex

def ReadSet.locations (r : ReadSet) : List PerpDexLocation := r.entries.map Prod.fst

/-- The locations that an operation reads, the index of orders aside. -/
def Operation.readLocations (user : Address) : Operation → List PerpDexLocation
  | .placeOrder m .. => [.balance user usdcAssetId, .position user m, .marketState m]
  | .adjustMargin m _ => [.balance user usdcAssetId, .position user m]
  | .cancelOrder .. | .cancelAll _ | .setLeverage .. => []

/-- The locations that a transaction reads: the nonce first, then those of its operations. -/
def PerpDexTx.readLocations (tx : PerpDexTx) : List PerpDexLocation :=
  .userNonce tx.user :: tx.operations.flatMap (·.readLocations tx.user)

namespace PerpDexExecutor
variable {S : Type} [PerpDexStorage S] {a b ex ex' : PerpDexExecutor S} {tx : PerpDexTx}

/-- The counters and the order index are the same, and so are the values at `locations`. -/
structure AgreeOn (locations : List PerpDexLocation) (user : Address)
    (a b : PerpDexExecutor S) : Prop where
  nextOrderId : a.nextOrderId = b.nextOrderId
  blockConfig : a.blockConfig = b.blockConfig
  get : ∀ l ∈ locations, PerpDexStorage.get a.storage l = PerpDexStorage.get b.storage l
  userOrders : ∀ m,
    PerpDexStorage.getUserOrders a.storage user m = PerpDexStorage.getUserOrders b.storage user m
  allUserOrders :
    PerpDexStorage.getAllUserOrders a.storage user = PerpDexStorage.getAllUserOrders b.storage user

lemma AgreeOn.mono {ls ls' : List PerpDexLocation} {user : Address} (h : AgreeOn ls user a b)
    (hsub : ls' ⊆ ls) : AgreeOn ls' user a b :=
  { h with get := fun l hl => h.get l (hsub hl) }

lemma AgreeOn.withNextOrderId {ls : List PerpDexLocation} {user : Address}
    (h : AgreeOn ls user a b) (n : U64) :
    AgreeOn ls user (a.withNextOrderId n) (b.withNextOrderId n) :=
  ⟨rfl, h.blockConfig, h.get, h.userOrders, h.allUserOrders⟩

lemma AgreeOn.readLocation {ls : List PerpDexLocation} {user : Address} (h : AgreeOn ls user a b)
    {l : PerpDexLocation} (hl : l ∈ ls) (rs : ReadSet) :
    a.readLocation l rs = b.readLocation l rs := by
  unfold PerpDexExecutor.readLocation
  rw [h.get l hl]

lemma AgreeOn.nonceOf_eq {ls : List PerpDexLocation} {user : Address} (h : AgreeOn ls user a b)
    (hl : .userNonce user ∈ ls) : a.nonceOf user = b.nonceOf user := by
  unfold nonceOf readNonce
  rw [h.readLocation hl]

lemma AgreeOn.balanceOf_eq {ls : List PerpDexLocation} {user : Address} (h : AgreeOn ls user a b)
    (hl : .balance user usdcAssetId ∈ ls) :
    a.balanceOf user usdcAssetId = b.balanceOf user usdcAssetId := by
  unfold balanceOf readBalance
  rw [h.readLocation hl]

lemma AgreeOn.positionOf_eq {ls : List PerpDexLocation} {user : Address} {m : U64}
    (h : AgreeOn ls user a b) (hl : .position user m ∈ ls) :
    a.positionOf user m = b.positionOf user m := by
  unfold positionOf readPosition
  rw [h.readLocation hl]

lemma AgreeOn.marketOf_eq {ls : List PerpDexLocation} {user : Address} {m : U64}
    (h : AgreeOn ls user a b) (hl : .marketState m ∈ ls) : a.marketOf m = b.marketOf m := by
  unfold marketOf readMarket defaultMarket
  rw [h.readLocation hl, h.blockConfig]

/-- Executors that agree on what an operation reads give it the same answers. -/
lemma AgreeOn.sameReads {user : Address} {op : Operation}
    (h : AgreeOn (op.readLocations user) user a b) : SameReads user a b op := by
  cases op with
  | placeOrder m =>
    exact ⟨h.balanceOf_eq (by simp [Operation.readLocations]),
      h.positionOf_eq (by simp [Operation.readLocations]),
      h.marketOf_eq (by simp [Operation.readLocations])⟩
  | cancelOrder => trivial
  | cancelAll m =>
    cases m with
    | some m => exact h.userOrders m
    | none => exact h.allUserOrders
  | setLeverage => trivial
  | adjustMargin m =>
    exact ⟨h.balanceOf_eq (by simp [Operation.readLocations]),
      h.positionOf_eq (by simp [Operation.readLocations])⟩

/-- Each operation of a run finds on the other executor what it found on this one. -/
lemma Runs.of_agreeOn {ops : List Operation} {ws : WriteSet} {rs : List OperationResult}
    (hrun : Runs tx a ops ws rs ex')
    (h : AgreeOn (ops.flatMap (·.readLocations tx.user)) tx.user a b) :
    ∃ b', Runs tx b ops ws rs b' := by
  induction hrun generalizing b with
  | nil => exact ⟨b, .nil⟩
  | @cons a _ op ops out ws rs hop _ ih =>
    have hsame : SameReads tx.user a b op := (h.mono (by simp)).sameReads
    obtain ⟨b', hb'⟩ := ih ((h.mono (by simp)).withNextOrderId out.nextOrderId)
    rw [executeOperation_of_sameReads h.nextOrderId h.blockConfig hsame] at hop
    exact ⟨b', .cons hop hb'⟩

/-- On every executor that agrees with this one on `locations` and on the counters and the order
index, a successful transaction has the same writes and results. -/
def DependsOnlyOn (locations : List PerpDexLocation) (ex : PerpDexExecutor S)
    (tx : PerpDexTx) : Prop :=
  ∀ rs ws result flags ex', ex.execute tx = (.success rs ws result flags, ex') →
    ∀ b, AgreeOn locations tx.user ex b →
      ∃ rs' flags' b', b.execute tx = (.success rs' ws result flags', b')

/-- A transaction depends on no other location than those it reads. -/
theorem dependsOnlyOn_readLocations (ex : PerpDexExecutor S) (tx : PerpDexTx) :
    DependsOnlyOn tx.readLocations ex tx := by
  intro rs ws result flags ex' hsuccess b hagree
  obtain ⟨hnonce, -, w, hruns, rfl⟩ := runs_of_execute hsuccess
  have hops : AgreeOn (tx.operations.flatMap (·.readLocations tx.user)) tx.user ex b :=
    hagree.mono (List.subset_cons_self ..)
  obtain ⟨b', hruns'⟩ := hruns.of_agreeOn hops
  have hnonce' : b.nonceOf tx.user = .ok tx.nonce := by
    rw [← hagree.nonceOf_eq (List.mem_cons_self ..), hnonce]
  have hsame := execute_of_runs hnonce hruns
  rw [hsuccess] at hsame
  injection hsame with hsame
  injection hsame with _ _ hresult _
  rw [hresult]
  exact ⟨_, _, b', execute_of_runs hnonce' hruns'⟩

end PerpDexExecutor

/-- The storage in which only the nonce of `user` is another one. -/
def InMemoryStorage.withNonce (s : InMemoryStorage) (user : Address) (n : U64) : InMemoryStorage :=
  { s with data := Function.update s.data (.userNonce user) (some (.nonce n)) }

namespace PerpDexExecutor
variable {ex : PerpDexExecutor InMemoryStorage} {tx : PerpDexTx}

lemma agreeOn_withNonce {ls : List PerpDexLocation} (hl : .userNonce tx.user ∉ ls) (n : U64) :
    AgreeOn ls tx.user ex (ex.withStorage (ex.storage.withNonce tx.user n)) where
  nextOrderId := rfl
  blockConfig := rfl
  get l hmem := by
    have hne : l ≠ .userNonce tx.user := fun heq => hl (heq ▸ hmem)
    simp [PerpDexStorage.get, withStorage, InMemoryStorage.withNonce, hne]
  userOrders _ := rfl
  allUserOrders := rfl

@[simp] lemma nonceOf_withNonce (user : Address) (n : U64) :
    (ex.withStorage (ex.storage.withNonce user n)).nonceOf user = .ok n := by
  have hget : PerpDexStorage.get (ex.withStorage (ex.storage.withNonce user n)).storage
      (.userNonce user) = .ok (some (.nonce n)) := by
    simp [PerpDexStorage.get, withStorage, InMemoryStorage.withNonce]
  unfold nonceOf readNonce PerpDexExecutor.readLocation
  rw [hget]
  rfl

/-- With another nonce in the storage the transaction is refused. -/
lemma userNonce_mem_of_dependsOnlyOn {ls : List PerpDexLocation} {rs : ReadSet} {ws : WriteSet}
    {result : PerpDexResult} {flags : FinishExecFlags} {ex' : PerpDexExecutor InMemoryStorage}
    (hsuccess : ex.execute tx = (.success rs ws result flags, ex'))
    (hdep : DependsOnlyOn ls ex tx) : .userNonce tx.user ∈ ls := by
  by_contra hl
  obtain ⟨rs', flags', b', hb⟩ :=
    hdep rs ws result flags ex' hsuccess _ (agreeOn_withNonce hl (tx.nonce + 1))
  obtain ⟨hnonce, -⟩ := runs_of_execute hb
  rw [nonceOf_withNonce] at hnonce
  simp at hnonce

/-- No successful transaction records what it depends on: there is a second storage that agrees on
all recorded reads and in which it ends differently. -/
theorem execute_readSet_incomplete {rs : ReadSet} {ws : WriteSet} {result : PerpDexResult}
    {flags : FinishExecFlags} {ex' : PerpDexExecutor InMemoryStorage}
    (hsuccess : ex.execute tx = (.success rs ws result flags, ex')) :
    ¬ DependsOnlyOn rs.locations ex tx := by
  intro hdep
  have hmem := userNonce_mem_of_dependsOnlyOn hsuccess hdep
  obtain ⟨-, rfl, -⟩ := runs_of_execute hsuccess
  simp [ReadSet.locations, ReadSet.new] at hmem

theorem execute_readSet_incomplete_restingOrder :
    ¬ DependsOnlyOn ReadSet.new.locations fundedExecutor (batchTx [restingOrder]) :=
  have hsuccess : fundedExecutor.execute (batchTx [restingOrder]) = (.success .new _ _ _, _) := rfl
  execute_readSet_incomplete hsuccess

/-- A user with half of the balance and the same read set writes another balance. -/
theorem not_dependsOnlyOn_adjustMargin :
    ∃ rs ws result flags ex',
      fundedExecutor.execute (batchTx [.adjustMargin 1 7]) = (.success rs ws result flags, ex') ∧
        ¬ DependsOnlyOn rs.locations fundedExecutor (batchTx [.adjustMargin 1 7]) := by
  refine ⟨_, _, _, _, _, rfl, fun hdep => ?_⟩
  have hagree : AgreeOn [] batchUser fundedExecutor (fundedExecutor.withStorage
      (fundedExecutor.storage.set (.balance batchUser usdcAssetId) (.balance 50))) :=
    ⟨rfl, rfl, fun _ h => absurd h List.not_mem_nil, fun _ => rfl, rfl⟩
  obtain ⟨rs', flags', b', hb⟩ := hdep _ _ _ _ _ rfl _ hagree
  injection hb with hresult
  injection hresult with _ hwrites _ _
  revert hwrites
  decide

end PerpDexExecutor

end Pevm.PerpDex
