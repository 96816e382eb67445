import Pevm.PerpDex.Batch
import Pevm.PerpDex.Position
import Mathlib.Algebra.BigOperators.Group.Finset.Basic

/-!
# The collateral of a user

The USDC balance and the margins of all positions, as exact integers. A margin
adjustment moves collateral between the two. An order that fills pays for its own
price and leverage, while the position it leaves is charged afresh, so the two only
agree under a condition on the fill.
-/
namespace Pevm.PerpDex

instance : Fintype U64 :=
  Fintype.ofEquiv (Fin (2 ^ 64)) ⟨BitVec.ofFin, BitVec.toFin, fun _ => rfl, fun _ => rfl⟩

namespace InMemoryStorage

/-- The USDC balance of a user as a number, nothing where none is stored. -/
def usdcOf (s : InMemoryStorage) (user : Address) : ℕ :=
  match s.data (.balance user usdcAssetId) with
  | some (.balance b) => b.toNat
  | _ => 0

/-- The margin of a position as a number, nothing where none is stored. -/
def marginOf (s : InMemoryStorage) (user : Address) (m : U64) : ℕ :=
  match s.data (.position user m) with
  | some (.position p) => p.margin.toNat
  | _ => 0

/-- The exact sum of the USDC balance and the margins of all markets, of which there are finitely
many. -/
def collateral (s : InMemoryStorage) (user : Address) : ℕ :=
  s.usdcOf user + ∑ m : U64, s.marginOf user m

/-- Locations whose value does not count as collateral, so that writing there leaves the sum as it
is. -/
def Neutral : PerpDexLocation → Prop
  | .order .. | .marketState _ | .userNonce _ => True
  | .balance .. | .position .. => False

lemma collateral_congr {s t : InMemoryStorage} {user : Address}
    (h : ∀ l, ¬ Neutral l → s.data l = t.data l) : s.collateral user = t.collateral user := by
  have hb : s.usdcOf user = t.usdcOf user := by
    simp only [usdcOf, h (.balance user usdcAssetId) id]
  have hm : ∀ m, s.marginOf user m = t.marginOf user m := by
    intro m
    simp only [marginOf, h (.position user m) id]
  simp only [collateral, hb, hm]

lemma data_writeAll_neutral {ws : WriteSet} (h : ∀ w ∈ ws, Neutral w.1) (s : InMemoryStorage)
    {l : PerpDexLocation} (hl : ¬ Neutral l) : (s.writeAll ws).data l = s.data l := by
  refine writeAll_data_of_forall_ne ws (fun w hw he => hl ?_) s
  rw [← he]
  exact h w hw

lemma collateral_writeAll_neutral {ws : WriteSet} (h : ∀ w ∈ ws, Neutral w.1)
    (s : InMemoryStorage) (user : Address) :
    (s.writeAll ws).collateral user = s.collateral user :=
  collateral_congr fun _ => data_writeAll_neutral h s

lemma collateral_set_balance (s : InMemoryStorage) (user : Address) (b : U256) :
    (s.set (.balance user usdcAssetId) (.balance b)).collateral user + s.usdcOf user =
      s.collateral user + b.toNat := by
  have hb : (s.set (.balance user usdcAssetId) (.balance b)).usdcOf user = b.toNat := by
    simp [usdcOf]
  have hm : ∀ m, (s.set (.balance user usdcAssetId) (.balance b)).marginOf user m =
      s.marginOf user m := by
    intro m
    simp [marginOf]
  simp only [collateral, hb, hm]
  omega

lemma collateral_set_position (s : InMemoryStorage) (user : Address) (m : U64)
    (p : PositionData) :
    (s.set (.position user m) (.position p)).collateral user + s.marginOf user m =
      s.collateral user + p.margin.toNat := by
  have hb : (s.set (.position user m) (.position p)).usdcOf user = s.usdcOf user := by
    simp [usdcOf]
  have hm : (s.set (.position user m) (.position p)).marginOf user m = p.margin.toNat := by
    simp [marginOf]
  have hrest : ∑ x ∈ Finset.univ.erase m,
      (s.set (.position user m) (.position p)).marginOf user x =
        ∑ x ∈ Finset.univ.erase m, s.marginOf user x := by
    apply Finset.sum_congr rfl
    intro m' hm'
    have h : m' ≠ m := Finset.ne_of_mem_erase hm'
    simp [marginOf, h]
  have hsum : s.marginOf user m + ∑ x ∈ Finset.univ.erase m, s.marginOf user x =
      ∑ x, s.marginOf user x := Finset.add_sum_erase _ _ (Finset.mem_univ m)
  have hsum' : (s.set (.position user m) (.position p)).marginOf user m +
      ∑ x ∈ Finset.univ.erase m, (s.set (.position user m) (.position p)).marginOf user x =
        ∑ x, (s.set (.position user m) (.position p)).marginOf user x :=
    Finset.add_sum_erase _ _ (Finset.mem_univ m)
  simp only [collateral, hb]
  omega

/-- A position and the balance written together. -/
lemma collateral_move (s : InMemoryStorage) (user : Address) (m : U64) (p : PositionData)
    (b : U256) :
    (s.writeAll [(.position user m, .position p),
        (.balance user usdcAssetId, .balance b)]).collateral user +
        (s.marginOf user m + s.usdcOf user) =
      s.collateral user + (p.margin.toNat + b.toNat) := by
  have hp := s.collateral_set_position user m p
  have hb := (s.set (.position user m) (.position p)).collateral_set_balance user b
  have hu : (s.set (.position user m) (.position p)).usdcOf user = s.usdcOf user := by
    simp [usdcOf]
  simp only [writeAll_cons, writeAll_nil]
  omega

lemma margin_add_usdc_le_collateral (s : InMemoryStorage) (user : Address) (m : U64) :
    s.marginOf user m + s.usdcOf user ≤ s.collateral user := by
  have h := Finset.single_le_sum (fun m _ => Nat.zero_le (s.marginOf user m))
    (Finset.mem_univ m)
  unfold collateral
  omega

end InMemoryStorage

namespace PerpDexExecutor
open Fallible InMemoryStorage Wrapping

variable {ex e : PerpDexExecutor InMemoryStorage} {tx : PerpDexTx}

lemma usdcOf_of_balanceOf {user : Address} {b : U256}
    (h : ex.balanceOf user usdcAssetId = .ok b) : ex.storage.usdcOf user = b.toNat := by
  unfold balanceOf readBalance readLocation at h
  unfold usdcOf
  rw [show PerpDexStorage.get ex.storage (.balance user usdcAssetId) =
    .ok (ex.storage.data (.balance user usdcAssetId)) from rfl] at h
  revert h
  cases ex.storage.data (.balance user usdcAssetId) with
  | none =>
    intro h
    cases h
    rfl
  | some v =>
    intro h
    cases v <;> cases h
    rfl

/-- The margin of a position that may be missing, as a number. -/
def marginOrZero (position : Option PositionData) : ℕ :=
  (position.map fun p => p.margin.toNat).getD 0

lemma marginOf_of_positionOf {user : Address} {m : U64} {position : Option PositionData}
    (h : ex.positionOf user m = .ok position) :
    ex.storage.marginOf user m = marginOrZero position := by
  unfold positionOf readPosition readLocation at h
  unfold marginOf
  rw [show PerpDexStorage.get ex.storage (.position user m) =
    .ok (ex.storage.data (.position user m)) from rfl] at h
  revert h
  cases ex.storage.data (.position user m) with
  | none =>
    intro h
    cases h
    rfl
  | some v =>
    intro h
    cases v <;> cases h
    rfl

/-- The margin of a notional in exact integers, where a product keeps 256 bits. -/
def notionalMargin (price size leverage : ℕ) : ℕ := price * size % 2 ^ 256 / (10 ^ 18 * leverage)

/-- How much of an order a position takes: positions have sizes of 128 bits with a sign. -/
def takenSize (size : U256) : ℕ := min size.toNat i128Max

/-- The exact size of a position that takes an order of its own direction. Past the end of the
range it comes back from the other side. -/
def grownSize (pos : PositionData) (size : U256) : ℕ :=
  min (pos.size.toInt.natAbs + takenSize size) (2 ^ 128 - (pos.size.toInt.natAbs + takenSize size))

/-- The order pays for the fill, up to one unit. What a position needs afterwards, at the leverage
of the order, is weighed against the margin it has and the margin of the order at the order's own
price. An order without a position opens one at the fill price. An order in the direction of the
position brings its entry price to the average. An order against it leaves the entry price when
the position takes less than twice its own size, and otherwise brings it to the fill price; the
most negative position always comes to the fill price, for it has no absolute value. -/
structure FillCovered (position : Option PositionData) (side : Side)
    (price fillPrice size : U256) (leverage : U8) : Prop where
  opens : position = none →
    notionalMargin fillPrice.toNat size.toNat leverage.toNat ≤
      notionalMargin price.toNat size.toNat leverage.toNat + 1
  grows : ∀ pos, position = some pos → 0 < side.sign * pos.size.toInt →
    notionalMargin
        (wrappedAverage (2 ^ 256) (10 ^ 18) (pos.size.toInt.natAbs * pos.entryPrice.toNat)
          (takenSize size * fillPrice.toNat) (grownSize pos size))
        (grownSize pos size) leverage.toNat ≤
      pos.margin.toNat + notionalMargin price.toNat size.toNat leverage.toNat + 1
  shrinks : ∀ pos, position = some pos → side.sign * pos.size.toInt ≤ 0 →
    pos.size.toInt ≠ -2 ^ 127 → takenSize size < 2 * pos.size.toInt.natAbs →
    notionalMargin pos.entryPrice.toNat
        (pos.size.toInt + side.sign * takenSize size).natAbs leverage.toNat ≤
      pos.margin.toNat + notionalMargin price.toNat size.toNat leverage.toNat + 1
  turns : ∀ pos, position = some pos → side.sign * pos.size.toInt ≤ 0 →
    pos.size.toInt = -2 ^ 127 ∨ 2 * pos.size.toInt.natAbs ≤ takenSize size →
    notionalMargin fillPrice.toNat
        (pos.size.toInt + side.sign * takenSize size).natAbs leverage.toNat ≤
      pos.margin.toNat + notionalMargin price.toNat size.toNat leverage.toNat + 1

/-- The operation is not an order that fills, or its fill is covered at the price at which it fills.
-/
def Covered (ex : PerpDexExecutor InMemoryStorage) (user : Address) : Operation → Prop
  | .placeOrder m t side price size leverage postOnly _ _ =>
      ∀ position market fillPrice, ex.positionOf user m = .ok position →
        ex.marketOf m = .ok market → fillPriceOf market t side price postOnly = some fillPrice →
        size ≠ 0 → FillCovered position side price fillPrice size leverage
  | _ => True

lemma commit_single {op : Operation} (hops : tx.operations = [op]) (h : ex.commit tx = some e) :
    ∃ out, ex.executeOperation tx op .new [] = .ok out ∧
      e.storage.collateral tx.user = (ex.storage.writeAll out.writeSet).collateral tx.user := by
  obtain ⟨w, rs, ex', hn, hruns⟩ := runs_of_commit h
  have he := commit_of_runs tx hn hruns
  rw [h, Option.some.injEq] at he
  rw [hops] at hruns
  cases hruns with
  | @cons _ _ _ _ out ws rs' hop hrest =>
    cases hrest
    refine ⟨out, hop, ?_⟩
    have hnonce : ∀ w ∈ [(PerpDexLocation.userNonce tx.user, PerpDexValue.nonce (tx.nonce + 1))],
        Neutral w.1 := by simp [Neutral]
    rw [he, List.append_nil]
    exact collateral_writeAll_neutral hnonce (ex.storage.writeAll out.writeSet) tx.user

lemma collateral_adjustMargin {m : U64} {amount : U256} {out : Outcome}
    (h : ex.executeAdjustMargin tx m amount .new [] = .ok out) :
    (ex.storage.writeAll out.writeSet).collateral tx.user ≤ ex.storage.collateral tx.user ∧
      (ex.storage.collateral tx.user < 2 ^ 256 →
        (ex.storage.writeAll out.writeSet).collateral tx.user =
          ex.storage.collateral tx.user) := by
  obtain ⟨balance, pos, hb, hp, hle, hw⟩ := executeAdjustMargin_ok h
  have hmove := ex.storage.collateral_move tx.user m { pos with margin := pos.margin + amount }
    (balance - amount)
  have hbound := ex.storage.margin_add_usdc_le_collateral tx.user m
  have husdc := usdcOf_of_balanceOf hb
  have hmargin : ex.storage.marginOf tx.user m = pos.margin.toNat := marginOf_of_positionOf hp
  have hsub : (balance - amount).toNat = balance.toNat - amount.toNat :=
    BitVec.toNat_sub_of_le hle
  have hadd : (pos.margin + amount).toNat = (pos.margin.toNat + amount.toNat) % 2 ^ 256 :=
    BitVec.toNat_add _ _
  have hamount : amount.toNat ≤ balance.toNat := hle
  rw [← hw] at hmove
  dsimp only at hmove
  have hmod := Nat.mod_le (pos.margin.toNat + amount.toNat) (2 ^ 256)
  constructor
  · omega
  · intro hC
    have hsmall := Nat.mod_eq_of_lt (show pos.margin.toNat + amount.toNat < 2 ^ 256 by omega)
    omega

section Filled
variable {pos : PositionData} {side : Side} {price fillPrice size : U256} {leverage : U8}

lemma updatePosition_margin_toNat :
    (updatePosition (some pos) side size fillPrice leverage).margin.toNat =
      notionalMargin
        (updatePosition (some pos) side size fillPrice leverage).entryPrice.toNat
        (updatePosition (some pos) side size fillPrice leverage).size.toInt.natAbs
        leverage.toNat := by
  rw [← magnitude_toNat]
  exact calculateRequiredMargin_toNat _ _ leverage

/-- A sum that leaves the range of an `i128` is still as large as the rest of the circle. -/
lemma updatePosition_size_of_same (hsame : 0 < side.sign * pos.size.toInt) :
    (updatePosition (some pos) side size fillPrice leverage).size.toInt.natAbs =
      grownSize pos size := by
  have hfits := fitsI128_toInt pos.size
  have hold : sizeOrZero (some pos) = pos.size.toInt := rfl
  rw [updatePosition_size_toInt, signedSize_toInt, Int.bmod_def, hold]
  unfold grownSize takenSize FitsI128 i128Max at *
  cases side <;> simp only [Side.sign] at hsame ⊢ <;> split_ifs <;> omega

/-- A position that takes an order of its own direction. -/
lemma updatePosition_margin_of_grows (hsize : size ≠ 0) (hsame : 0 < side.sign * pos.size.toInt) :
    (updatePosition (some pos) side size fillPrice leverage).margin.toNat =
      notionalMargin
        (wrappedAverage (2 ^ 256) (10 ^ 18) (pos.size.toInt.natAbs * pos.entryPrice.toNat)
          (takenSize size * fillPrice.toNat) (grownSize pos size))
        (grownSize pos size) leverage.toNat := by
  have hpos := toNat_pos hsize
  have htaken : (signedSize size side).toInt.natAbs = takenSize size := by
    rw [signedSize_toInt]
    cases side <;> simp only [Side.sign] <;> unfold takenSize <;> omega
  have hsign : pos.size.toInt.sign = (signedSize size side).toInt.sign := by
    rw [sign_eq_iff, signedSize_toInt]
    unfold i128Max
    cases side <;> simp only [Side.sign] at hsame ⊢ <;> omega
  have hnew : (updatePosition (some pos) side size fillPrice leverage).size.toInt.natAbs =
      grownSize pos size := updatePosition_size_of_same hsame
  have hopen : (updatePosition (some pos) side size fillPrice leverage).size ≠ 0 := by
    intro hzero
    rw [hzero] at hnew
    have hfits := fitsI128_toInt pos.size
    have hz : (0 : I128).toInt.natAbs = 0 := by decide
    unfold grownSize takenSize FitsI128 i128Max at *
    cases side <;> simp only [Side.sign] at hsame <;> omega
  rw [updatePosition_margin_toNat, entryPrice_of_same_sign _ _ _ _ _ hsign hopen, hnew, htaken]

/-- A position that takes an order against it, or that was closed. -/
lemma updatePosition_margin_of_not_grows (hsize : size ≠ 0)
    (hother : side.sign * pos.size.toInt ≤ 0) :
    (updatePosition (some pos) side size fillPrice leverage).margin.toNat =
      notionalMargin
        (if pos.size.toInt ≠ -2 ^ 127 ∧ takenSize size < 2 * pos.size.toInt.natAbs
          then pos.entryPrice else fillPrice).toNat
        (pos.size.toInt + side.sign * takenSize size).natAbs leverage.toNat := by
  have hpos := toNat_pos hsize
  have hfits := fitsI128_toInt pos.size
  have hnot : ¬ Grows pos.size.toInt (sizeAfter pos side size) := by
    unfold Grows sizeAfter
    cases side <;> simp only [Side.sign] at hother ⊢ <;> omega
  have hnew : (updatePosition (some pos) side size fillPrice leverage).size.toInt =
      pos.size.toInt + side.sign * takenSize size := by
    rw [updatePosition_size_toInt, signedSize_toInt]
    refine (bmod_eq_self_iff _).mpr ?_
    show FitsI128 (pos.size.toInt + _)
    unfold FitsI128 i128Max at *
    cases side <;> simp only [Side.sign] at hother ⊢ <;> omega
  have hkept : (pos.size.toInt ≠ -2 ^ 127 ∧ 0 < size.toNat ∧
      min size.toNat i128Max < 2 * pos.size.toInt.natAbs) ↔
      pos.size.toInt ≠ -2 ^ 127 ∧ takenSize size < 2 * pos.size.toInt.natAbs := by
    simp only [hpos, true_and, takenSize]
  rw [updatePosition_margin_toNat, entryPrice_eq_ite leverage hnot (.inr hpos.ne'), hnew,
    if_congr hkept rfl rfl]

/-- What the order pays covers the fill when the margin of the position grows by no more. -/
lemma fillCovered_iff (hsize : size ≠ 0) (position : Option PositionData) :
    FillCovered position side price fillPrice size leverage ↔
      (updatePosition position side size fillPrice leverage).margin.toNat ≤
        marginOrZero position + (calculateRequiredMargin price size leverage).toNat + 1 := by
  have hpaid : (calculateRequiredMargin price size leverage).toNat =
      notionalMargin price.toNat size.toNat leverage.toNat := calculateRequiredMargin_toNat ..
  rw [hpaid]
  cases position with
  | none =>
    have hopened : (updatePosition none side size fillPrice leverage).margin.toNat =
        notionalMargin fillPrice.toNat size.toNat leverage.toNat :=
      calculateRequiredMargin_toNat ..
    rw [hopened, show marginOrZero none = 0 from rfl, Nat.zero_add]
    exact ⟨fun h => h.opens rfl, fun h => ⟨fun _ => h, by simp, by simp, by simp⟩⟩
  | some pos =>
    show _ ↔ _ ≤ pos.margin.toNat + _ + 1
    by_cases hsame : 0 < side.sign * pos.size.toInt
    · rw [updatePosition_margin_of_grows hsize hsame]
      constructor
      · intro h
        exact h.grows pos rfl hsame
      · intro h
        refine ⟨by simp, ?_, ?_, ?_⟩
        · rintro _ ⟨⟩ _
          exact h
        · rintro _ ⟨⟩ hother
          omega
        · rintro _ ⟨⟩ hother
          omega
    · have hother : side.sign * pos.size.toInt ≤ 0 := by omega
      rw [updatePosition_margin_of_not_grows hsize hother]
      by_cases hkept : pos.size.toInt ≠ -2 ^ 127 ∧ takenSize size < 2 * pos.size.toInt.natAbs
      · rw [if_pos hkept]
        constructor
        · intro h
          exact h.shrinks pos rfl hother hkept.1 hkept.2
        · intro h
          refine ⟨by simp, ?_, ?_, ?_⟩
          · rintro _ ⟨⟩ hsame'
            exact absurd hsame' hsame
          · rintro _ ⟨⟩ _ _ _
            exact h
          · rintro _ ⟨⟩ _ hturned
            omega
      · have hturned : pos.size.toInt = -2 ^ 127 ∨
            2 * pos.size.toInt.natAbs ≤ takenSize size := by omega
        rw [if_neg hkept]
        constructor
        · intro h
          exact h.turns pos rfl hother hturned
        · intro h
          refine ⟨by simp, ?_, ?_, ?_⟩
          · rintro _ ⟨⟩ hsame'
            exact absurd hsame' hsame
          · rintro _ ⟨⟩ _ hmin hless
            exact absurd ⟨hmin, hless⟩ hkept
          · rintro _ ⟨⟩ _ _
            exact h

end Filled

/-- A fill adds the new margin, and takes the old margin and what the order pays. -/
lemma collateral_placeOrder {m : U64} {t : OrderType} {side : Side} {price size : U256}
    {leverage : U8} {postOnly reduceOnly : Bool} {expiresAt : Option U64} {out : Outcome}
    (h : ex.executePlaceOrder tx m t side price size leverage postOnly reduceOnly expiresAt
      .new [] = .ok out) :
    (ex.storage.writeAll out.writeSet).collateral tx.user ≤ ex.storage.collateral tx.user + 1 ↔
      ex.Covered tx.user
        (.placeOrder m t side price size leverage postOnly reduceOnly expiresAt) := by
  obtain ⟨-, balance, position, market, fill, hb, hp, hm, hle, hf, rfl⟩ :=
    (executePlaceOrder_ok_iff ..).mp h
  have hcovered : ex.Covered tx.user
      (.placeOrder m t side price size leverage postOnly reduceOnly expiresAt) ↔
      (∀ fillPrice, fillPriceOf market t side price postOnly = some fillPrice → size ≠ 0 →
        FillCovered position side price fillPrice size leverage) := by
    constructor
    · intro hc fillPrice hfp hs
      exact hc position market fillPrice hp hm hfp hs
    · intro hc position' market' fillPrice hp' hm' hfp hs
      rw [hp] at hp'
      rw [hm] at hm'
      cases hp'
      cases hm'
      exact hc fillPrice hfp hs
  have hws : ∀ w ∈ ex.restingWrites tx m t side price size postOnly reduceOnly expiresAt fill.1,
      Neutral w.1 := by
    intro w hw
    rw [restingWrites_location hw]
    trivial
  rw [hcovered, List.nil_append, writeAll_append]
  generalize ex.restingWrites tx m t side price size postOnly reduceOnly expiresAt fill.1 = ws at *
  have hneutral := collateral_writeAll_neutral hws ex.storage tx.user
  have hnot : fill.1 = 0 → fillWrites tx m side price size leverage balance position fill = [] := by
    intro hzero
    simp [fillWrites, hzero]
  obtain ⟨hprice, rfl⟩ | ⟨fillPrice, hprice, rfl, -⟩ := matchOrder_ok_iff.mp hf
  · rw [hnot rfl, writeAll_nil, hneutral, hprice]
    simp
  · by_cases hsize : size = 0
    · rw [hnot hsize, writeAll_nil, hneutral]
      simp [hsize]
    · have hpos : size > 0 := (BitVec.pos_iff_ne_zero size).mpr hsize
      have husdc : (ex.storage.writeAll ws).usdcOf tx.user = balance.toNat := by
        rw [← usdcOf_of_balanceOf hb]
        simp only [usdcOf, data_writeAll_neutral hws ex.storage (id : ¬ Neutral (.balance _ _))]
      have hmargin : (ex.storage.writeAll ws).marginOf tx.user m = marginOrZero position := by
        rw [← marginOf_of_positionOf hp]
        simp only [marginOf, data_writeAll_neutral hws ex.storage (id : ¬ Neutral (.position _ _))]
      have hmove := (ex.storage.writeAll ws).collateral_move tx.user m
        (updatePosition position side size fillPrice leverage)
        (balance - calculateRequiredMargin price size leverage)
      have hsub : (balance - calculateRequiredMargin price size leverage).toNat =
          balance.toNat - (calculateRequiredMargin price size leverage).toNat :=
        BitVec.toNat_sub_of_le hle
      have hpaid : (calculateRequiredMargin price size leverage).toNat ≤ balance.toNat := hle
      have hiff : FillCovered position side price fillPrice size leverage ↔
          (updatePosition position side size fillPrice leverage).margin.toNat ≤
            marginOrZero position + (calculateRequiredMargin price size leverage).toNat + 1 :=
        fillCovered_iff hsize position
      have hwrites : fillWrites tx m side price size leverage balance position (size, fillPrice) =
          [(.position tx.user m,
              .position (updatePosition position side size fillPrice leverage)),
            (.balance tx.user usdcAssetId,
              .balance (balance - calculateRequiredMargin price size leverage))] := by
        unfold fillWrites
        rw [if_pos hpos]
      rw [husdc, hmargin, hneutral] at hmove
      rw [hwrites]
      constructor
      · intro hC fillPrice' hfp' _
        rw [hprice] at hfp'
        cases hfp'
        apply hiff.mpr
        omega
      · intro hc
        have hnew := hiff.mp (hc fillPrice hprice hsize)
        omega

/-- The operation leaves no more collateral than there was, up to one unit, and a margin
adjustment leaves exactly as much. -/
def KeepsCollateral (s s' : InMemoryStorage) (user : Address) (op : Operation) : Prop :=
  s'.collateral user ≤ s.collateral user + 1 ∧
    ∀ m amount, op = .adjustMargin m amount → s.collateral user < 2 ^ 256 →
      s'.collateral user = s.collateral user

lemma collateral_of_neutral {op : Operation} {out : Outcome} {e : PerpDexExecutor InMemoryStorage}
    (hne : ∀ m amount, op ≠ .adjustMargin m amount) (hw : ∀ w ∈ out.writeSet, Neutral w.1)
    (he : e.storage.collateral tx.user =
      (ex.storage.writeAll out.writeSet).collateral tx.user) :
    KeepsCollateral ex.storage e.storage tx.user op := by
  rw [collateral_writeAll_neutral hw] at he
  constructor
  · omega
  · intro m amount hop
    exact absurd hop (hne m amount)

/-- A single operation mints no collateral exactly when the fill it causes, if any, is
covered. -/
theorem keepsCollateral_iff_covered {op : Operation} (hops : tx.operations = [op])
    (h : ex.commit tx = some e) :
    KeepsCollateral ex.storage e.storage tx.user op ↔ ex.Covered tx.user op := by
  obtain ⟨out, hop, he⟩ := commit_single hops h
  cases op with
  | placeOrder m t side price size leverage postOnly reduceOnly expiresAt =>
    rw [← collateral_placeOrder hop, ← he]
    simp [KeepsCollateral]
  | cancelOrder m ids =>
    refine iff_of_true (collateral_of_neutral (by simp) ?_ he) trivial
    cases hop
    simp [Neutral]
  | cancelAll m =>
    refine iff_of_true (collateral_of_neutral (by simp) ?_ he) trivial
    unfold executeOperation executeCancelAll at hop
    dsimp only at hop
    split at hop
    · cases hop
      simp [Neutral]
    · cases hop
  | setLeverage m leverage =>
    refine iff_of_true (collateral_of_neutral (by simp) ?_ he) trivial
    obtain ⟨_, -, hret⟩ := bind_eq_ok.mp hop
    cases hret
    simp
  | adjustMargin m amount =>
    obtain ⟨hle, heq⟩ := collateral_adjustMargin hop
    refine iff_of_true ⟨?_, ?_⟩ trivial
    · omega
    · intro _ _ _ hC
      rw [he]
      exact heq hC

section Sample

def collateralTx (op : Operation) : PerpDexTx := ⟨batchUser, [op], 200000, 5000, 0, none⟩

def openingOrder : Operation := .placeOrder 2 .limit .long (10 ^ 21) 10 100 false false none

/-- A limit order opens a position with the margin it pays. -/
theorem keepsCollateral_openingOrder :
    ∃ e, fundedExecutor.commit (collateralTx openingOrder) = some e ∧
      KeepsCollateral fundedExecutor.storage e.storage batchUser openingOrder := by
  obtain ⟨e, he⟩ := Option.isSome_iff_exists.mp
    (by decide +kernel : (fundedExecutor.commit (collateralTx openingOrder)).isSome = true)
  refine ⟨e, he, (keepsCollateral_iff_covered rfl he).mpr ?_⟩
  intro position market fillPrice hp hm hfp _
  have hposition : fundedExecutor.positionOf (collateralTx openingOrder).user 2 = .ok none := by
    decide +kernel
  have hprice : fillPrice = 10 ^ 21 := by
    unfold fillPriceOf at hfp
    dsimp only at hfp
    split at hfp
    · cases hfp
    · exact (Option.some.inj hfp).symm
  rw [hposition] at hp
  cases hp
  rw [hprice]
  exact ⟨fun _ => Nat.le_succ _, by simp, by simp, by simp⟩

def unpricedOrder : Operation := .placeOrder 2 .market .long 0 (10 ^ 18) 1 false false none

/-- A market order that names no price opens a position for nothing. -/
theorem not_keepsCollateral_unpricedOrder :
    ∃ e, fundedExecutor.commit (collateralTx unpricedOrder) = some e ∧
      ¬ KeepsCollateral fundedExecutor.storage e.storage batchUser unpricedOrder := by
  obtain ⟨e, he⟩ := Option.isSome_iff_exists.mp
    (by decide +kernel : (fundedExecutor.commit (collateralTx unpricedOrder)).isSome = true)
  refine ⟨e, he, fun h => ?_⟩
  obtain ⟨out, hop, hstorage⟩ := commit_single rfl he
  have hle := h.1
  rw [show batchUser = (collateralTx unpricedOrder).user from rfl, hstorage] at hle
  have hcovered := (collateral_placeOrder hop).mp hle
  have hfill := hcovered none fundedExecutor.defaultMarket (1000 * 10 ^ 18) (by decide +kernel)
    (by decide +kernel) (by decide +kernel) (by decide +kernel)
  have hopens := hfill.opens rfl
  revert hopens
  decide +kernel

end Sample

end PerpDexExecutor

end Pevm.PerpDex
