import Pevm.Lib.Fallible
import Pevm.Lib.Rlp
import Pevm.Pexe.Reuse

/-!
# Receipt roots

The receipts of a block are hashed in a trie, under the encodings of the transactions' indices.
The hash builder takes its leaves in the order of their keys, which is not the order of the block,
so the entries are sorted before they are added.
-/
namespace Pevm
open Fallible LazyEvaluation

/-- The errors of `calculate_receipt_root`, and the panic of the hash builder. -/
inductive CalculateReceiptRootError
  | unsupported
  | invalidTxType (ty : U8)
  | custom (message : String)
  | opDepositMissingSender
  /-- `add_leaf` with a key that is not above the last one. -/
  | panic
  deriving DecidableEq, Repr

abbrev Nibble := BitVec 4

/-- The crates that encode indices and hash tries; `B` is what a trie is hashed to. -/
structure TrieApi (H B : Type) where
  encodeFixedSize : ℕ → List U8
  unpack : List U8 → List Nibble
  default : H
  /-- Nothing, where it panics. -/
  addLeaf : H → List Nibble → List U8 → Option H
  root : H → B

namespace TrieApi
variable {H B : Type} (trie : TrieApi H B)

/-- What is collected of the encoded receipts: each under the RLP key of its index, in index order.
-/
def trieEntries (receipts : List (List U8)) : List (List U8 × List U8) :=
  receipts.zipIdx.map fun v => (trie.encodeFixedSize v.2, v.1)

/-- The loop over the sorted entries, which gives every one of them to the hash builder. -/
def addLeaves : List (List U8 × List U8) → H → Except CalculateReceiptRootError H
  | [], hashBuilder => .ok hashBuilder
  | (k, v) :: entries, hashBuilder =>
    match trie.addLeaf hashBuilder (trie.unpack k) v with
    | some hashBuilder => addLeaves entries hashBuilder
    | none => .error .panic

/-- The part that both chains share: sort the encoded receipts by their keys, add them as leaves and
take the root. -/
def rootOf (receipts : List (List U8)) : Except CalculateReceiptRootError B := do
  let hashBuilder ← trie.addLeaves ((trie.trieEntries receipts).mergeSort Rlp.entryLe) trie.default
  return trie.root hashBuilder

/-- The leaves that have been added to a builder, one after the other. -/
inductive Holds : List (List Nibble × List U8) → H → Prop
  | nil : Holds [] trie.default
  | snoc {leaves : List (List Nibble × List U8)} {h h' : H} {leaf : List Nibble × List U8} :
      Holds leaves h → trie.addLeaf h leaf.1 leaf.2 = some h' → Holds (leaves ++ [leaf]) h'

/-- What the crates say of themselves: indices are RLP-encoded, keys are unpacked into nibbles,
and a leaf is taken if its key is the first one or is preceded by the last one. -/
structure Documented (lastKey : H → List Nibble) : Prop where
  encodeFixedSize : ∀ index < 2 ^ 64, trie.encodeFixedSize index = Rlp.encode index
  unpack : ∀ bytes, trie.unpack bytes = Rlp.nibbles bytes
  default : lastKey trie.default = []
  addLeaf : ∀ h key value, key ≠ [] → lastKey h = [] ∨ Rlp.Precedes (lastKey h) key →
    ∃ h', trie.addLeaf h key value = some h' ∧ lastKey h' = key

/-- The leaves of a block's receipts, in the order of their keys and with the keys as paths. -/
def receiptLeaves (receipts : List (List U8)) : List (List Nibble × List U8) :=
  (Rlp.keyOrder (Rlp.entries receipts)).map fun e => (Rlp.nibbles e.1, e.2)

variable {trie} {lastKey : H → List Nibble}

lemma Documented.addLeaves (hdoc : trie.Documented lastKey)
    {entries : List (List U8 × List U8)} {leaves : List (List Nibble × List U8)} {h : H}
    (hholds : trie.Holds leaves h) (hkeys : ∀ e ∈ entries, e.1 ≠ [])
    (hlast : ∀ e ∈ entries, lastKey h = [] ∨ Rlp.Precedes (lastKey h) (Rlp.nibbles e.1))
    (hsorted : entries.Pairwise fun a b => Rlp.Precedes a.1 b.1) :
    ∃ h', trie.addLeaves entries h = .ok h' ∧
      trie.Holds (leaves ++ entries.map fun e => (Rlp.nibbles e.1, e.2)) h' := by
  induction entries generalizing leaves h with
  | nil => exact ⟨h, rfl, by rwa [List.map_nil, List.append_nil]⟩
  | cons e entries ih =>
    obtain ⟨hhead, htail⟩ := List.pairwise_cons.mp hsorted
    obtain ⟨hkey, hkeys⟩ := List.forall_mem_cons.mp hkeys
    obtain ⟨h₁, hadd, hlast₁⟩ := hdoc.addLeaf h (Rlp.nibbles e.1) e.2 (Rlp.nibbles_ne_nil hkey)
      (hlast e List.mem_cons_self)
    have hholds₁ : trie.Holds (leaves ++ [(Rlp.nibbles e.1, e.2)]) h₁ := .snoc hholds hadd
    obtain ⟨h', hrest, hall⟩ := ih hholds₁ hkeys
      (fun e' he' => hlast₁ ▸ .inr (hhead e' he').nibbles) htail
    rw [List.append_assoc, List.singleton_append] at hall
    refine ⟨h', ?_, by rwa [List.map_cons]⟩
    rw [TrieApi.addLeaves, hdoc.unpack, hadd]
    exact hrest

lemma Documented.trieEntries (hdoc : trie.Documented lastKey) {receipts : List (List U8)}
    (hlen : receipts.length < 2 ^ 64) : trie.trieEntries receipts = Rlp.entries receipts := by
  refine List.map_congr_left fun v hv => ?_
  have hidx := List.snd_lt_of_mem_zipIdx hv
  rw [hdoc.encodeFixedSize v.2 (by omega)]

/-- The builder is given every receipt once, in the order of the keys, and does not panic. -/
theorem Documented.rootOf (hdoc : trie.Documented lastKey) {receipts : List (List U8)}
    (hlen : receipts.length < 2 ^ 64) :
    ∃ h, trie.Holds (receiptLeaves receipts) h ∧ trie.rootOf receipts = .ok (trie.root h) := by
  have hle : receipts.length ≤ 256 ^ 55 := hlen.le.trans (by norm_num)
  have hkeys : ∀ e ∈ Rlp.keyOrder (Rlp.entries receipts), e.1 ≠ [] := fun e he =>
    Rlp.ne_nil_of_mem_entries ((Rlp.keyOrder_perm _).mem_iff.mp he)
  obtain ⟨h, hadd, hholds⟩ := hdoc.addLeaves .nil hkeys (fun _ _ => .inl hdoc.default)
    (Rlp.pairwise_keyOrder_entries hle)
  refine ⟨h, hholds, ?_⟩
  rw [TrieApi.rootOf, hdoc.trieEntries hlen, Rlp.mergeSort_entries hle, hadd]
  rfl

end TrieApi

inductive TxType
  | legacy
  | eip2930
  | eip1559
  | eip4844
  | eip7702
  deriving DecidableEq, Repr

/-- A receipt with its bloom, wrapped under the type of its transaction. -/
inductive ReceiptEnvelope (R : Type)
  | legacy (receipt : R)
  | eip2930 (receipt : R)
  | eip1559 (receipt : R)
  | eip4844 (receipt : R)
  | eip7702 (receipt : R)

/-- The types of transactions on Optimism, where a deposit is one of them and blobs are not. -/
inductive OpTxType
  | legacy
  | eip2930
  | eip1559
  | eip7702
  | deposit
  deriving DecidableEq, Repr

/-- The receipt of a deposit, which from some forks on names a nonce and a version. -/
structure OpDepositReceipt (L : Type) where
  inner : Receipt L
  depositNonce : Option U64
  depositReceiptVersion : Option U64

/-- A receipt on Optimism with its bloom, wrapped under the type of its transaction. -/
inductive OpReceiptEnvelope (R D : Type)
  | legacy (receipt : R)
  | eip2930 (receipt : R)
  | eip1559 (receipt : R)
  | eip7702 (receipt : R)
  | deposit (receipt : D)

/-- What the code uses of its libraries for receipts: the blooms, and `encoded_2718` of envelopes.
-/
structure ReceiptApi (L R D : Type) where
  withBloom : Receipt L → R
  depositWithBloom : OpDepositReceipt L → D
  encoded2718 : ReceiptEnvelope R → List U8
  opEncoded2718 : OpReceiptEnvelope R D → List U8

/-- The specs of revm, which are ordered by age, with those two at which receipts change. -/
structure SpecIds (S : Type) where
  byzantium : S
  canyon : S

section Chains
variable {H B L R D S Code : Type} [LinearOrder S] (trie : TrieApi H B) (api : ReceiptApi L R D)
  (specIds : SpecIds S) (specId : S)

namespace PevmEthereum

/-- The receipt of a result with its bloom, wrapped under the type of the transaction. -/
def receiptEnvelope (txType : TxType) (result : PexeTxExecutionResult L (TxState Code)) :
    ReceiptEnvelope R :=
  let receipt := api.withBloom result.receipt
  match txType with
  | .legacy => .legacy receipt
  | .eip2930 => .eip2930 receipt
  | .eip1559 => .eip1559 receipt
  | .eip4844 => .eip4844 receipt
  | .eip7702 => .eip7702 receipt

/-- The transactions are read for their types only. -/
def calculateReceiptRoot (txs : List TxType)
    (txResults : List (PexeTxExecutionResult L (TxState Code))) :
    Except CalculateReceiptRootError B :=
  if specId < specIds.byzantium then .error .unsupported
  else
    trie.rootOf ((txs.zip txResults).map fun p => api.encoded2718 (receiptEnvelope api p.1 p.2))

variable {trie api specIds specId} {lastKey : H → List Nibble} {txs : List TxType}
  {txResults : List (PexeTxExecutionResult L (TxState Code))}

/-- From Byzantium on the root is that of the trie with the receipt of every transaction, whatever
the length of the block, and before it there is none. The crates of the trie are parameters, of
which `hdoc` says what they document. -/
theorem calculateReceiptRoot_eq (hdoc : trie.Documented lastKey) (hlen : txs.length < 2 ^ 64) :
    ∃ h, trie.Holds (TrieApi.receiptLeaves
        ((txs.zip txResults).map fun p => api.encoded2718 (receiptEnvelope api p.1 p.2))) h ∧
      calculateReceiptRoot trie api specIds specId txs txResults =
        if specId < specIds.byzantium then .error .unsupported else .ok (trie.root h) := by
  have hzip : ((txs.zip txResults).map fun p =>
      api.encoded2718 (receiptEnvelope api p.1 p.2)).length < 2 ^ 64 := by
    rw [List.length_map, List.length_zip]
    omega
  obtain ⟨h, hholds, hroot⟩ := hdoc.rootOf hzip
  refine ⟨h, hholds, ?_⟩
  rw [calculateReceiptRoot, hroot]

end PevmEthereum

namespace PevmOptimism

/-- What is read of a transaction. -/
structure Transaction where
  txType : OpTxType
  signer : Address

/-- The receipt of a deposit has the nonce that its sender had before it, which is one less than
the sender's nonce now; the subtraction wraps. -/
def receiptEnvelope (tx : Transaction) (result : PexeTxExecutionResult L (TxState Code)) :
    Except CalculateReceiptRootError (OpReceiptEnvelope R D) :=
  match tx.txType with
  | .legacy => .ok (.legacy (api.withBloom result.receipt))
  | .eip2930 => .ok (.eip2930 (api.withBloom result.receipt))
  | .eip1559 => .ok (.eip1559 (api.withBloom result.receipt))
  | .eip7702 => .ok (.eip7702 (api.withBloom result.receipt))
  | .deposit =>
    match result.state tx.signer with
    | some (some account) =>
      .ok (.deposit (api.depositWithBloom
        { inner := result.receipt
          depositNonce := if specIds.canyon ≤ specId then some (account.nonce - 1) else none
          depositReceiptVersion := if specIds.canyon ≤ specId then some 1 else none }))
    | _ => .error .opDepositMissingSender

def calculateReceiptRoot (txs : List Transaction)
    (txResults : List (PexeTxExecutionResult L (TxState Code))) :
    Except CalculateReceiptRootError B := do
  let receipts ← (txs.zip txResults).mapM fun p =>
    (receiptEnvelope api specIds specId p.1 p.2).map api.opEncoded2718
  trie.rootOf receipts

/-- The sender of a deposit is not among the accounts that the deposit has left behind. -/
def MissesSender (tx : Transaction) (result : PexeTxExecutionResult L (TxState Code)) : Prop :=
  tx.txType = .deposit ∧ ∀ account, result.state tx.signer ≠ some (some account)

variable {trie api specIds specId} {lastKey : H → List Nibble} {tx : Transaction}
  {result : PexeTxExecutionResult L (TxState Code)} {txs : List Transaction}
  {txResults : List (PexeTxExecutionResult L (TxState Code))}

lemma receiptEnvelope_of_missesSender (h : MissesSender tx result) :
    receiptEnvelope api specIds specId tx result = .error .opDepositMissingSender := by
  rw [receiptEnvelope, h.1]
  cases hstate : result.state tx.signer with
  | none => rfl
  | some account =>
    cases account with
    | none => rfl
    | some account => exact absurd hstate (h.2 account)

lemma exists_receiptEnvelope (h : ¬ MissesSender tx result) :
    ∃ receipt, receiptEnvelope api specIds specId tx result = .ok receipt := by
  unfold receiptEnvelope
  cases htype : tx.txType with
  | deposit =>
    obtain ⟨account, hstate⟩ : ∃ account, result.state tx.signer = some (some account) := by
      by_contra hnone
      exact h ⟨htype, fun account hstate => hnone ⟨account, hstate⟩⟩
    rw [hstate]
    exact ⟨_, rfl⟩
  | _ => exact ⟨_, rfl⟩

lemma missesSender_of_error {e : CalculateReceiptRootError}
    (h : receiptEnvelope api specIds specId tx result = .error e) :
    e = .opDepositMissingSender ∧ MissesSender tx result := by
  have hmisses : MissesSender tx result := by
    by_contra hnot
    have hok : ∃ receipt, receiptEnvelope api specIds specId tx result = .ok receipt :=
      exists_receiptEnvelope hnot
    obtain ⟨receipt, hok⟩ := hok
    rw [hok] at h
    cases h
  rw [receiptEnvelope_of_missesSender hmisses] at h
  exact ⟨(Except.error.inj h).symm, hmisses⟩

/-- Either the sender of some deposit is missing, which is the only error, or the root is that of
the trie with the receipt of every transaction. The crates of the trie are parameters, of which
`hdoc` says what they document. -/
theorem calculateReceiptRoot_cases (hdoc : trie.Documented lastKey) (hlen : txs.length < 2 ^ 64) :
    ((∃ p ∈ txs.zip txResults, MissesSender p.1 p.2) ∧
      calculateReceiptRoot trie api specIds specId txs txResults =
        .error .opDepositMissingSender) ∨
    (¬ (∃ p ∈ txs.zip txResults, MissesSender p.1 p.2) ∧ ∃ receipts h,
      List.Forall₂ (fun p receipt => receiptEnvelope api specIds specId p.1 p.2 = .ok receipt)
        (txs.zip txResults) receipts ∧
      trie.Holds (TrieApi.receiptLeaves (receipts.map api.opEncoded2718)) h ∧
      calculateReceiptRoot trie api specIds specId txs txResults = .ok (trie.root h)) := by
  rw [calculateReceiptRoot, mapM_map]
  cases hmap : (txs.zip txResults).mapM fun p => receiptEnvelope api specIds specId p.1 p.2 with
  | error e =>
    obtain ⟨p, hp, herror⟩ := Fails.mapM _ _ e hmap
    obtain ⟨rfl, hmisses⟩ := missesSender_of_error herror
    exact .inl ⟨⟨p, hp, hmisses⟩, rfl⟩
  | ok receipts =>
    have hreceipts := mapM_eq_ok.mp hmap
    have hlen' : (receipts.map api.opEncoded2718).length < 2 ^ 64 := by
      rw [List.length_map, ← hreceipts.length_eq, List.length_zip]
      omega
    obtain ⟨h, hholds, hroot⟩ := hdoc.rootOf hlen'
    refine .inr ⟨?_, receipts, h, hreceipts, hholds, hroot⟩
    rintro ⟨p, hp, hmisses⟩
    obtain ⟨receipt, hok⟩ := exists_ok_of_mem hreceipts hp
    rw [receiptEnvelope_of_missesSender hmisses] at hok
    cases hok

end PevmOptimism

end Chains

section Witness

/-- The path of the leaf that was added last; the empty one before any. -/
def lastPath : List (List Nibble × List U8) → List Nibble
  | [] => []
  | leaf :: _ => leaf.1

/-- A trie that is its leaves, the last one first. It takes a leaf on the same condition as the hash
builder does. -/
def leafTrie : TrieApi (List (List Nibble × List U8)) (List (List Nibble × List U8)) where
  encodeFixedSize := Rlp.encode
  unpack := Rlp.nibbles
  default := []
  addLeaf leaves key value :=
    if key ≠ [] ∧ (lastPath leaves = [] ∨ Rlp.Precedes (lastPath leaves) key) then
      some ((key, value) :: leaves)
    else none
  root := id

lemma leafTrie_documented : leafTrie.Documented lastPath where
  encodeFixedSize _ _ := rfl
  unpack _ := rfl
  default := rfl
  addLeaf leaves key value hkey hlast :=
    ⟨(key, value) :: leaves, if_pos ⟨hkey, hlast⟩, rfl⟩

/-- The RLP fields of a successful receipt without logs, whose bloom is zero. -/
def plainFields (gas : U64) : List U8 :=
  0x01 :: Rlp.encode gas.toNat ++ 0xb9 :: 0x01 :: 0x00 :: List.replicate 256 0 ++ [0xc0]

/-- The fields behind the header of a list, whose length takes two bytes. -/
def withHeader (fields : List U8) : List U8 :=
  0xf9 :: BigEndian.toBytes 2 fields.length ++ fields

/-- The encodings of the receipts of transactions that succeed without logs. -/
def plainApi : ReceiptApi Unit (Receipt Unit) (OpDepositReceipt Unit) where
  withBloom := id
  depositWithBloom := id
  encoded2718
    | .legacy receipt => withHeader (plainFields receipt.cumulativeGasUsed)
    | .eip2930 receipt => 0x01 :: withHeader (plainFields receipt.cumulativeGasUsed)
    | .eip1559 receipt => 0x02 :: withHeader (plainFields receipt.cumulativeGasUsed)
    | .eip4844 receipt => 0x03 :: withHeader (plainFields receipt.cumulativeGasUsed)
    | .eip7702 receipt => 0x04 :: withHeader (plainFields receipt.cumulativeGasUsed)
  opEncoded2718
    | .legacy receipt => withHeader (plainFields receipt.cumulativeGasUsed)
    | .eip2930 receipt => 0x01 :: withHeader (plainFields receipt.cumulativeGasUsed)
    | .eip1559 receipt => 0x02 :: withHeader (plainFields receipt.cumulativeGasUsed)
    | .eip7702 receipt => 0x04 :: withHeader (plainFields receipt.cumulativeGasUsed)
    | .deposit receipt =>
      0x7e :: withHeader (plainFields receipt.inner.cumulativeGasUsed ++
        (receipt.depositNonce.map fun nonce => Rlp.encode nonce.toNat).getD [] ++
        (receipt.depositReceiptVersion.map fun version => Rlp.encode version.toNat).getD [])

/-- The result of a transaction without logs that used this gas. -/
def plainResult (gas : U64) (state : TxState Unit) : PexeTxExecutionResult Unit (TxState Unit) :=
  ⟨⟨gas, ()⟩, state⟩

/-- The second of two receipts has the lower key. -/
lemma receiptLeaves_pair (a b : List U8) :
    TrieApi.receiptLeaves [a, b] = [([0, 1], b), ([8, 0], a)] := by
  have hzero : Rlp.nibbles (Rlp.encode 0) = [8, 0] := rfl
  have hone : Rlp.nibbles (Rlp.encode 1) = [0, 1] := rfl
  simp [TrieApi.receiptLeaves, Rlp.keyOrder, Rlp.entries, hzero, hone]

theorem PevmEthereum.calculateReceiptRoot_eq_transfers :
    ∃ leaves, leafTrie.Holds
        [([0, 1], plainApi.encoded2718 (.eip1559 ⟨42000, ()⟩)),
          ([8, 0], plainApi.encoded2718 (.legacy ⟨21000, ()⟩))] leaves ∧
      calculateReceiptRoot leafTrie plainApi ⟨6, 19⟩ 20 [.legacy, .eip1559]
          [plainResult 21000 fun _ => none, plainResult 42000 fun _ => none] = .ok leaves := by
  rw [← receiptLeaves_pair]
  exact @calculateReceiptRoot_eq _ _ _ _ _ ℕ Unit _ leafTrie plainApi ⟨6, 19⟩ 20 lastPath
    [.legacy, .eip1559] [plainResult 21000 fun _ => none, plainResult 42000 fun _ => none]
    leafTrie_documented (by decide)

/-- After the deposit its sender, account 1, has the nonce 5; nobody else was touched. -/
def depositor : TxState Unit :=
  fun address => if address = 1 then some (some ⟨0, 5, none, none, fun _ => none⟩) else none

theorem PevmOptimism.calculateReceiptRoot_cases_deposit :
    ∃ leaves, leafTrie.Holds
        [([0, 1], plainApi.opEncoded2718 (.legacy ⟨42000, ()⟩)),
          ([8, 0], plainApi.opEncoded2718 (.deposit ⟨⟨21000, ()⟩, some 4, some 1⟩))] leaves ∧
      calculateReceiptRoot leafTrie plainApi ⟨6, 19⟩ 20 [⟨.deposit, 1⟩, ⟨.legacy, 2⟩]
          [plainResult 21000 depositor, plainResult 42000 fun _ => none] = .ok leaves := by
  have hcases := @calculateReceiptRoot_cases _ _ _ _ _ ℕ Unit _ leafTrie plainApi ⟨6, 19⟩ 20
    lastPath [⟨.deposit, 1⟩, ⟨.legacy, 2⟩]
    [plainResult 21000 depositor, plainResult 42000 fun _ => none] leafTrie_documented (by decide)
  rw [← receiptLeaves_pair]
  rcases hcases with ⟨⟨p, hp, htype, hnone⟩, -⟩ | ⟨-, receipts, leaves, hreceipts, hholds, hroot⟩
  · rcases List.mem_pair.mp hp with rfl | rfl
    · exact absurd rfl (hnone _)
    · cases htype
  · obtain ⟨deposit, rest, hdeposit, hrest, rfl⟩ := List.forall₂_cons_left_iff.mp hreceipts
    obtain ⟨transfer, last, htransfer, hlast, rfl⟩ := List.forall₂_cons_left_iff.mp hrest
    obtain rfl := List.forall₂_nil_left_iff.mp hlast
    cases hdeposit
    cases htransfer
    exact ⟨leaves, hholds, hroot⟩

end Witness

end Pevm
