import Pevm.PerpDex.Collateral
import Pevm.PerpDex.Frame
import Pevm.PerpDex.Nonces

/-!
# What a storage keeps

Over any sequence of blocks every location keeps to values of its own kind, so that no read ever
fails. An order in the book is open and not filled at all, and no position has a profit or a funding
booked. What is stored as the balance of a user never goes up, and no market ever moves.
-/
namespace Pevm.PerpDex
open PerpDexExecutor Fallible

/-- The values that a location can have when only the executor has written it: one of its own kind,
with the fields that the code never changes as it sets them. -/
def Fits : PerpDexLocation → PerpDexValue → Prop
  | .balance _ _, .balance _ | .order _ _ _, .deleted | .marketState _, .marketState _
  | .userNonce _, .nonce _ => True
  | .position _ _, .position p =>
    1 ≤ p.leverage ∧ p.leverage ≤ 100 ∧ p.unrealizedPnl = 0 ∧ p.lastFundingIndex = 0
  | .order _ _ _, .order o => o.size > 0 ∧ o.filled = 0 ∧ o.status = .open
  | _, _ => False

/-- Every location has a value that fits, or none. A new storage is well kept. -/
def InMemoryStorage.WellKept (s : InMemoryStorage) : Prop :=
  ∀ l v, s.data l = some v → Fits l v

/-- What a transaction can be refused for, the storage being in order: its nonce, its leverage, its
funds, reduce-only, or a position that is not there. -/
def ExecutionError.IsOrdinary : ExecutionError → Prop
  | .invalidPosition message => message = "No position to adjust margin"
  | .storage _ | .orderNotFound _ => False
  | .nonceMismatch _ _ | .insufficientBalance _ _ | .invalidLeverage _ | .reduceOnlyViolation =>
    True

lemma InMemoryStorage.WellKept.writeAll {s : InMemoryStorage} (h : s.WellKept) {ws : WriteSet}
    (hws : ∀ w ∈ ws, Fits w.1 w.2) : (s.writeAll ws).WellKept := by
  induction ws generalizing s with
  | nil => exact h
  | cons w ws ih =>
    apply ih
    · intro l v hv
      rw [set_data] at hv
      by_cases hl : l = w.1
      · subst hl
        rw [Function.update_self] at hv
        rw [← Option.some.inj hv]
        exact hws w List.mem_cons_self
      · rw [Function.update_of_ne hl] at hv
        exact h l v hv
    · exact fun w hw => hws w (List.mem_cons_of_mem _ hw)

namespace PerpDexExecutor
variable {ex ex' : PerpDexExecutor InMemoryStorage} {tx : PerpDexTx} {user : Address}

section Reads

/-- On a storage in order reads do not fail. -/
lemma refusals_isOrdinary (h : ex.storage.WellKept) (user : Address) :
    Refusals ex user (·.IsOrdinary) where
  leverage _ := trivial
  margin _ _ := trivial
  reduceOnly := trivial
  noPosition := rfl
  balanceOf := fails_read fun _ => by
    cases hdata : ex.storage.data (.balance user usdcAssetId) with
    | none => exact .ok _
    | some value =>
      have hfits : Fits _ value := h _ _ hdata
      cases value with
      | balance => exact .ok _
      | _ => exact False.elim hfits
  positionOf m := fails_read fun _ => by
    cases hdata : ex.storage.data (.position user m) with
    | none => exact .ok _
    | some value =>
      have hfits : Fits _ value := h _ _ hdata
      cases value with
      | position => exact .ok _
      | _ => exact False.elim hfits
  marketOf m := fails_read fun _ => by
    cases hdata : ex.storage.data (.marketState m) with
    | none => exact .ok _
    | some value =>
      have hfits : Fits _ value := h _ _ hdata
      cases value with
      | marketState => exact .ok _
      | _ => exact False.elim hfits

lemma exists_nonceOf (h : ex.storage.WellKept) (user : Address) :
    ∃ n, ex.nonceOf user = .ok n := by
  have hread : ex.nonceOf user = (ex.readNonce user .new).map Prod.fst := rfl
  have hlocation : ex.readLocation (.userNonce user) .new =
    .ok (ex.storage.data (.userNonce user), .new) := rfl
  rw [hread]
  unfold readNonce
  rw [hlocation, ok_bind]
  cases hdata : ex.storage.data (.userNonce user) with
  | none => exact ⟨0, rfl⟩
  | some value =>
    have hfits : Fits _ value := h _ _ hdata
    cases value with
    | nonce n => exact ⟨n, rfl⟩
    | _ => exact False.elim hfits

/-- A position that is found fits. -/
lemma fits_of_positionOf (h : ex.storage.WellKept) {m : U64} {p : PositionData}
    (hp : ex.positionOf user m = .ok (some p)) : Fits (.position user m) (.position p) := by
  have hread : ex.positionOf user m = (ex.readPosition user m .new).map Prod.fst := rfl
  have hlocation : ex.readLocation (.position user m) .new =
    .ok (ex.storage.data (.position user m), .new) := rfl
  rw [hread] at hp
  unfold readPosition at hp
  rw [hlocation, ok_bind] at hp
  cases hdata : ex.storage.data (.position user m) with
  | none =>
    rw [hdata] at hp
    cases hp
  | some value =>
    rw [hdata] at hp
    cases value with
    | position p' =>
      cases hp
      exact h _ _ hdata
    | _ => cases hp

end Reads

section Writes

lemma leverage_of_checkLeverage {leverage : U8} (h : checkLeverage leverage = .ok ()) :
    1 ≤ leverage ∧ leverage ≤ 100 := by
  unfold checkLeverage at h
  split_ifs at h with hout
  rw [not_or] at hout
  exact ⟨BitVec.not_lt.mp hout.1, BitVec.not_lt.mp hout.2⟩

/-- A position that is filled has the leverage of the order and nothing booked. -/
lemma fits_updatePosition {m : U64} {position : Option PositionData} {side : Side}
    {filledSize fillPrice : U256} {leverage : U8} (hleverage : 1 ≤ leverage ∧ leverage ≤ 100)
    (hposition : ∀ p, position = some p → Fits (.position user m) (.position p)) :
    Fits (.position user m)
      (.position (updatePosition position side filledSize fillPrice leverage)) := by
  cases position with
  | none => exact ⟨hleverage.1, hleverage.2, rfl, rfl⟩
  | some p => exact ⟨hleverage.1, hleverage.2, rfl, (hposition p rfl).2.2.2⟩

/-- An order fills in full or not at all, so what rests has not been filled. -/
lemma fits_restingWrites {m : U64} {t : OrderType} {side : Side} {price size : U256}
    {postOnly reduceOnly : Bool} {expiresAt : Option U64} {market : MarketData}
    {position : Option PositionData} {fill : U256 × U256}
    (hfill : matchOrder t side price size postOnly reduceOnly market position = .ok fill) :
    ∀ w ∈ ex.restingWrites tx m t side price size postOnly reduceOnly expiresAt fill.1,
      Fits w.1 w.2 := by
  intro w hw
  unfold restingWrites at hw
  obtain ⟨-, rfl⟩ | ⟨fillPrice, -, rfl, -⟩ := matchOrder_ok_iff.mp hfill
  · have hopen : (if (0 : U256) > 0 then OrderStatus.partiallyFilled else .open) = .open := rfl
    split at hw
    next hsize =>
      rw [List.mem_singleton.mp hw]
      exact ⟨hsize, rfl, hopen⟩
    next => cases hw
  · simp at hw

theorem executeOperation_fits (h : ex.storage.WellKept) (op : Operation) :
    Post (ex.executeOperation tx op .new [])
      fun out => ∀ w ∈ out.writeSet, Fits w.1 w.2 := by
  intro out hout w hw
  cases op with
  | placeOrder m t side price size leverage postOnly reduceOnly expiresAt =>
    obtain ⟨hleverage, balance, position, market, fill, -, hposition, -, -, hfill, rfl⟩ :=
      (executePlaceOrder_ok_iff ..).mp hout
    rcases List.mem_append.mp hw with hw | hw
    · exact fits_restingWrites hfill w hw
    · unfold fillWrites at hw
      split_ifs at hw
      · rcases List.mem_pair.mp hw with rfl | rfl
        · apply fits_updatePosition (leverage_of_checkLeverage hleverage)
          rintro p rfl
          exact fits_of_positionOf h hposition
        · trivial
      · cases hw
  | cancelOrder m ids =>
    obtain rfl := Except.ok.inj hout
    obtain ⟨id, -, rfl⟩ := List.mem_map.mp hw
    trivial
  | cancelAll m =>
    unfold executeOperation executeCancelAll at hout
    dsimp only at hout
    split at hout
    · obtain rfl := Except.ok.inj hout
      obtain ⟨id, -, rfl⟩ := List.mem_map.mp hw
      trivial
    · cases hout
  | setLeverage m leverage =>
    obtain ⟨_, -, hret⟩ := bind_eq_ok.mp hout
    obtain rfl := Except.ok.inj hret
    cases hw
  | adjustMargin m amount =>
    obtain ⟨balance, pos, -, hposition, -, hwrites⟩ := executeAdjustMargin_ok hout
    rw [hwrites] at hw
    rcases List.mem_pair.mp hw with rfl | rfl
    · have hfits : Fits (.position tx.user m) (.position pos) := fits_of_positionOf h hposition
      exact hfits
    · trivial

lemma writesOf_fits (h : ex.storage.WellKept) (tx : PerpDexTx) :
    ∀ w ∈ BlockState.writesOf (ex.execute tx).1, Fits w.1 w.2 := by
  intro w hw
  cases hcheck : ex.check tx with
  | error e =>
    rw [execute_of_check_error hcheck] at hw
    cases hw
  | ok _ =>
    obtain ⟨ws, res, ex', hexecute⟩ := execute_of_check_ok hcheck
    obtain ⟨-, -, own, hruns, rfl⟩ := runs_of_execute hexecute
    rw [hexecute] at hw
    rcases List.mem_append.mp hw with hw | hw
    · exact hruns.forall_writes (P := fun w => Fits w.1 w.2)
        (fun n => @executeOperation_fits (ex.withNextOrderId n) tx h) w hw
    · rw [List.mem_singleton.mp hw]
      trivial

/-- A transaction that is refused is refused for an ordinary reason. -/
lemma isOrdinary_of_refusal (h : ex.storage.WellKept) {e : ExecutionError}
    (he : (ex.execute tx).1.refusal = some e) : e.IsOrdinary := by
  cases hcheck : ex.check tx with
  | error e' =>
    rw [execute_of_check_error hcheck] at he
    obtain rfl := Option.some.inj he
    obtain ⟨n, hn⟩ := exists_nonceOf h tx.user
    unfold check at hcheck
    rw [hn, ok_bind] at hcheck
    split_ifs at hcheck
    · obtain rfl := Except.error.inj hcheck
      trivial
    · exact (refusals_isOrdinary h tx.user).checkOperations tx.operations e' hcheck
  | ok _ =>
    obtain ⟨ws, res, ex', hexecute⟩ := execute_of_check_ok hcheck
    rw [hexecute] at he
    cases he

end Writes

end PerpDexExecutor

namespace BlockState
variable {b : BlockState} {user : Address}

/-- What is stored is in order, and what is pending will be once it is written. -/
structure WellKept (b : BlockState) : Prop where
  storage : b.executor.storage.WellKept
  pending : ∀ w ∈ b.pending, Fits w.1 w.2

lemma WellKept.written (h : b.WellKept) : b.written.WellKept := h.storage.writeAll h.pending

lemma WellKept.advance (h : b.WellKept) (event : Event) : (b.advance event).WellKept := by
  match event with
  | .nextBlock config => exact ⟨h.written, fun w hw => by cases hw⟩
  | .inBlock .write => exact ⟨h.written, fun w hw => by cases hw⟩
  | .inBlock (.execute tx) =>
    constructor
    · show (b.executor.execute tx).2.storage.WellKept
      rw [execute_counter]
      exact h.storage
    · intro w hw
      rcases List.mem_append.mp hw with hw | hw
      · exact h.pending w hw
      · exact writesOf_fits h.storage tx w hw

lemma WellKept.after (h : b.WellKept) (events : List Event) : (b.after events).WellKept := by
  induction events generalizing b with
  | nil => exact h
  | cons event events ih => exact ih (h.advance event)

/-- A storage that is in order, with a value of its own kind at every location, stays in order over
any sequence of blocks, and then no transaction is refused because of what the storage holds. That
the first storage is in order is assumed; a new one is. -/
theorem wellKept_after {storage : InMemoryStorage} (h : storage.WellKept) (config : BlockConfig)
    (events : List Event) :
    ((start storage config).after events).written.WellKept ∧
      ∀ tx e, (((start storage config).after events).executor.execute tx).1.refusal = some e →
        e.IsOrdinary := by
  have hstart : (start storage config).WellKept := ⟨h, fun w hw => by cases hw⟩
  have hafter := hstart.after events
  exact ⟨hafter.written, fun tx e he => isOrdinary_of_refusal hafter.storage he⟩

theorem wellKept_after_restingTx :
    ((start .new ⟨0, 1⟩).after [.inBlock (.execute restingTx), .inBlock .write]).written.WellKept ∧
      ∀ tx e, (((start .new ⟨0, 1⟩).after
        [.inBlock (.execute restingTx), .inBlock .write]).executor.execute tx).1.refusal = some e →
          e.IsOrdinary :=
  wellKept_after (fun l v hv => by cases hv) ⟨0, 1⟩ [.inBlock (.execute restingTx), .inBlock .write]

end BlockState

section Spending

/-- A write of a balance leaves no more than is stored, and no write is to a market. -/
structure Spends (s : InMemoryStorage) (w : PerpDexLocation × PerpDexValue) : Prop where
  balance : ∀ user, w.1 = .balance user usdcAssetId →
    ∃ v, w.2 = .balance v ∧ v.toNat ≤ s.usdcOf user
  market : ∀ m, w.1 ≠ .marketState m

variable {s : InMemoryStorage} {ws : WriteSet} {user : Address}

lemma spends_of_ne {w : PerpDexLocation × PerpDexValue}
    (hbalance : ∀ user, w.1 ≠ .balance user usdcAssetId) (hmarket : ∀ m, w.1 ≠ .marketState m) :
    Spends s w :=
  ⟨fun user huser => absurd huser (hbalance user), hmarket⟩

lemma usdcOf_writeAll_le {n : ℕ} (hs : s.usdcOf user ≤ n)
    (hws : ∀ w ∈ ws, w.1 = .balance user usdcAssetId → ∃ v, w.2 = .balance v ∧ v.toNat ≤ n) :
    (s.writeAll ws).usdcOf user ≤ n := by
  induction ws generalizing s with
  | nil => exact hs
  | cons w ws ih =>
    refine ih ?_ fun w hw => hws w (List.mem_cons_of_mem _ hw)
    by_cases hw : w.1 = .balance user usdcAssetId
    · obtain ⟨v, hv, hle⟩ := hws w List.mem_cons_self hw
      simpa [InMemoryStorage.usdcOf, hw, hv] using hle
    · have hne : PerpDexLocation.balance user usdcAssetId ≠ w.1 := fun heq => hw heq.symm
      simpa [InMemoryStorage.usdcOf, hne] using hs

namespace PerpDexExecutor
variable {ex : PerpDexExecutor InMemoryStorage} {tx : PerpDexTx}

/-- An operation takes from the balance, and leaves the markets alone. -/
lemma executeOperation_spends (op : Operation) :
    Post (ex.executeOperation tx op .new [])
      fun out => ∀ w ∈ out.writeSet, Spends ex.storage w := by
  intro out hout w hw
  cases op with
  | placeOrder m t side price size leverage postOnly reduceOnly expiresAt =>
    obtain ⟨-, balance, position, market, fill, hbalance, -, -, hmargin, -, rfl⟩ :=
      (executePlaceOrder_ok_iff ..).mp hout
    rcases List.mem_append.mp hw with hw | hw
    · have hlocation := restingWrites_location hw
      exact spends_of_ne (by simp [hlocation]) (by simp [hlocation])
    · unfold fillWrites at hw
      split_ifs at hw
      · rcases List.mem_pair.mp hw with rfl | rfl
        · exact spends_of_ne nofun nofun
        · refine ⟨?_, nofun⟩
          rintro user ⟨⟩
          rw [usdcOf_of_balanceOf hbalance]
          exact ⟨_, rfl, sub_le_of_le hmargin⟩
      · cases hw
  | cancelOrder m ids =>
    obtain rfl := Except.ok.inj hout
    obtain ⟨id, -, rfl⟩ := List.mem_map.mp hw
    exact spends_of_ne nofun nofun
  | cancelAll m =>
    unfold executeOperation executeCancelAll at hout
    dsimp only at hout
    split at hout
    · obtain rfl := Except.ok.inj hout
      obtain ⟨id, -, rfl⟩ := List.mem_map.mp hw
      exact spends_of_ne nofun nofun
    · cases hout
  | setLeverage m leverage =>
    obtain ⟨_, -, hret⟩ := bind_eq_ok.mp hout
    obtain rfl := Except.ok.inj hret
    cases hw
  | adjustMargin m amount =>
    obtain ⟨balance, pos, hbalance, -, hamount, hwrites⟩ := executeAdjustMargin_ok hout
    rw [hwrites] at hw
    rcases List.mem_pair.mp hw with rfl | rfl
    · exact spends_of_ne nofun nofun
    · refine ⟨?_, nofun⟩
      rintro user ⟨⟩
      rw [usdcOf_of_balanceOf hbalance]
      exact ⟨_, rfl, sub_le_of_le hamount⟩

lemma writesOf_spends (ex : PerpDexExecutor InMemoryStorage) (tx : PerpDexTx) :
    ∀ w ∈ BlockState.writesOf (ex.execute tx).1, Spends ex.storage w := by
  intro w hw
  cases hcheck : ex.check tx with
  | error e =>
    rw [execute_of_check_error hcheck] at hw
    cases hw
  | ok _ =>
    obtain ⟨ws, res, ex', hexecute⟩ := execute_of_check_ok hcheck
    obtain ⟨-, -, own, hruns, rfl⟩ := runs_of_execute hexecute
    rw [hexecute] at hw
    rcases List.mem_append.mp hw with hw | hw
    · exact hruns.forall_writes (P := fun w => Spends ex.storage w)
        (fun n => @executeOperation_spends (ex.withNextOrderId n) tx) w hw
    · rw [List.mem_singleton.mp hw]
      exact spends_of_ne nofun nofun

end PerpDexExecutor

namespace BlockState
variable {b : BlockState}

/-- Everything that is pending takes from what is stored: no balance in it is above the stored one.
-/
def Spending (b : BlockState) : Prop := ∀ w ∈ b.pending, Spends b.executor.storage w

lemma Spending.written (h : b.Spending) (user : Address) :
    b.written.usdcOf user ≤ b.executor.storage.usdcOf user :=
  usdcOf_writeAll_le le_rfl fun w hw => (h w hw).balance user

lemma Spending.market (h : b.Spending) (m : U64) :
    b.written.data (.marketState m) = b.executor.storage.data (.marketState m) :=
  InMemoryStorage.writeAll_data_of_forall_ne _ (fun w hw => (h w hw).market m) _

lemma spending_of_nil (h : b.pending = []) : b.Spending := by
  intro w hw
  rw [h] at hw
  cases hw

/-- An event leaves everybody with what was stored or less. -/
lemma Spending.advance (h : b.Spending) (event : Event) :
    (b.advance event).Spending ∧
      (∀ user, (b.advance event).executor.storage.usdcOf user ≤ b.executor.storage.usdcOf user) ∧
      ∀ m, (b.advance event).executor.storage.data (.marketState m) =
        b.executor.storage.data (.marketState m) := by
  match event with
  | .nextBlock config => exact ⟨spending_of_nil rfl, h.written, h.market⟩
  | .inBlock .write => exact ⟨spending_of_nil rfl, h.written, h.market⟩
  | .inBlock (.execute tx) =>
    have hstorage : (b.advance (.inBlock (.execute tx))).executor.storage =
        b.executor.storage := by
      show (b.executor.execute tx).2.storage = b.executor.storage
      rw [execute_counter]
      rfl
    rw [hstorage]
    refine ⟨fun w hw => ?_, fun _ => le_rfl, fun _ => rfl⟩
    rw [hstorage]
    rcases List.mem_append.mp hw with hw | hw
    · exact h w hw
    · exact writesOf_spends b.executor tx w hw

lemma Spending.after (h : b.Spending) (events : List Event) :
    (b.after events).Spending ∧
      (∀ user, (b.after events).executor.storage.usdcOf user ≤ b.executor.storage.usdcOf user) ∧
      ∀ m, (b.after events).executor.storage.data (.marketState m) =
        b.executor.storage.data (.marketState m) := by
  induction events generalizing b with
  | nil => exact ⟨h, fun _ => le_rfl, fun _ => rfl⟩
  | cons event events ih =>
    obtain ⟨hspending, hbalance, hmarket⟩ := h.advance event
    obtain ⟨hspending', hbalance', hmarket'⟩ := ih hspending
    exact ⟨hspending', fun user => (hbalance' user).trans (hbalance user),
      fun m => (hmarket' m).trans (hmarket m)⟩

/-- Over any sequence of blocks the stored balance of a user never goes up, and no market ever
moves. This is so for every storage to begin with and between any two moments. -/
theorem usdcOf_antitone (storage : InMemoryStorage) (config : BlockConfig)
    (earlier later : List Event) :
    (∀ user, ((start storage config).after (earlier ++ later)).executor.storage.usdcOf user ≤
        ((start storage config).after earlier).executor.storage.usdcOf user) ∧
      ∀ m, ((start storage config).after (earlier ++ later)).executor.storage.data
          (.marketState m) = storage.data (.marketState m) := by
  have hstart : (start storage config).Spending := spending_of_nil rfl
  have hsplit : (start storage config).after (earlier ++ later) =
      ((start storage config).after earlier).after later := List.foldl_append
  obtain ⟨hspending, -, hmarket⟩ := hstart.after earlier
  obtain ⟨-, hbalance', hmarket'⟩ := hspending.after later
  rw [hsplit]
  exact ⟨hbalance', fun m => (hmarket' m).trans (hmarket m)⟩

end BlockState

end Spending

end Pevm.PerpDex
