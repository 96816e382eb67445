import Pevm.Account
import Pevm.PerpDex.State

/-!
# Partitions of the hash space

A location hash of a partitioned machine has the partition in its high eight bits. The PerpDex
locations are mixed with theirs; the hash of an EVM location is the base hash as it is.
-/
namespace Pevm.PerpDex

/-- The number of a partition of the 64-bit hashes, their high eight bits. -/
structure PartitionId where
  id : U8
  deriving DecidableEq, Repr

namespace PartitionId

def EVM : PartitionId := ⟨0⟩

def PERPDEX : PartitionId := ⟨2⟩

/-- `mix_hash`: the high eight bits of the base hash give way to the number of the partition. -/
def mixHash (partition : PartitionId) (baseHash : U64) : U64 :=
  (partition.id.setWidth 64 <<< 56) ||| (baseHash &&& 0x00ffffffffffffff)

/-- `from_hash`: the partition that a mixed hash shows. -/
def fromHash (mixedHash : U64) : PartitionId := ⟨(mixedHash >>> 56).setWidth 8⟩

/-- The partition is the high part, the base hash the low one. -/
lemma toNat_mixHash (partition : PartitionId) (h : U64) :
    (partition.mixHash h).toNat = partition.id.toNat * 2 ^ 56 + h.toNat % 2 ^ 56 := by
  have hid : partition.id.toNat < 2 ^ 8 := partition.id.isLt
  have hhigh : (partition.id.setWidth 64 <<< 56).toNat = partition.id.toNat <<< 56 := by
    rw [BitVec.toNat_shiftLeft, BitVec.toNat_setWidth, Nat.shiftLeft_eq, Nat.shiftLeft_eq]
    omega
  have hlow : (h &&& 0x00ffffffffffffff).toNat = h.toNat % 2 ^ 56 := by
    rw [BitVec.toNat_and]
    exact Nat.and_two_pow_sub_one_eq_mod h.toNat 56
  rw [mixHash, BitVec.toNat_or, hhigh, hlow,
    ← Nat.shiftLeft_add_eq_or_of_lt (Nat.mod_lt _ (by decide)), Nat.shiftLeft_eq]

lemma toNat_fromHash (h : U64) : (fromHash h).id.toNat = h.toNat / 2 ^ 56 := by
  have hlt : h.toNat < 2 ^ 64 := h.isLt
  show ((h >>> 56).setWidth 8).toNat = _
  rw [BitVec.toNat_setWidth, BitVec.toNat_ushiftRight, Nat.shiftRight_eq_div_pow]
  omega

@[ext] lemma ext_toNat {a b : PartitionId} (h : a.id.toNat = b.id.toNat) : a = b := by
  cases a
  cases b
  exact congrArg PartitionId.mk (BitVec.eq_of_toNat_eq h)

/-- `fromHash` is the inverse of `mixHash`. -/
theorem fromHash_mixHash (partition : PartitionId) (h : U64) :
    fromHash (partition.mixHash h) = partition := by
  ext
  rw [toNat_fromHash, toNat_mixHash]
  omega

lemma fromHash_eq_EVM_iff (h : U64) : fromHash h = EVM ↔ h.toNat < 2 ^ 56 := by
  constructor
  · intro heq
    have hid : (fromHash h).id.toNat = 0 := congrArg (fun p => p.id.toNat) heq
    rw [toNat_fromHash] at hid
    omega
  · intro hlt
    ext
    rw [toNat_fromHash]
    show h.toNat / 2 ^ 56 = 0
    omega

end PartitionId

/-- A base hash function in place of `FxHasher`, at the locations of either machine. -/
structure BaseHash where
  perpDex : PerpDexLocation → U64
  evm : MemoryLocation → U64

/-- `partition_id`: all locations of the exchange are in one partition. -/
def PerpDexLocation.partitionId (_ : PerpDexLocation) : PartitionId := .PERPDEX

/-- `location_hash`: the base hash of the location, mixed with the partition. -/
def PerpDexLocation.locationHash (base : BaseHash) (p : PerpDexLocation) : U64 :=
  p.partitionId.mixHash (base.perpDex p)

/-- `hash_deterministic`: the hash of an EVM location does not pass through its partition. -/
def hashDeterministic (base : BaseHash) (m : MemoryLocation) : U64 := base.evm m

/-- The two hashes are different, and each shows the partition that its location belongs to. -/
structure Isolated (base : BaseHash) (p : PerpDexLocation) (m : MemoryLocation) : Prop where
  ne : p.locationHash base ≠ hashDeterministic base m
  perpDex : PartitionId.fromHash (p.locationHash base) = .PERPDEX
  evm : PartitionId.fromHash (hashDeterministic base m) = .EVM

/-- Two locations are isolated exactly if the base hash of the EVM location has no high bit,
whatever the base hash function is. -/
theorem isolated_iff (base : BaseHash) (p : PerpDexLocation) (m : MemoryLocation) :
    Isolated base p m ↔ (base.evm m).toNat < 2 ^ 56 := by
  rw [← PartitionId.fromHash_eq_EVM_iff]
  constructor
  · intro h
    exact h.evm
  · intro hevm
    have hperpDex : PartitionId.fromHash (p.locationHash base) = .PERPDEX :=
      PartitionId.fromHash_mixHash ..
    refine ⟨fun heq => ?_, hperpDex, hevm⟩
    rw [heq] at hperpDex
    exact absurd (hperpDex.symm.trans hevm) (by decide)

/-- An EVM location whose base hash has the PerpDex partition as its high bits, and a PerpDex
location with the same low bits. -/
def collidingHash : BaseHash where
  perpDex _ := 0x9100000000000005
  evm _ := 0x0200000000000005

theorem not_isolated_collidingHash :
    PerpDexLocation.locationHash collidingHash (.balance 1 0) =
        hashDeterministic collidingHash (.basic 1) ∧
      ¬ Isolated collidingHash (.balance 1 0) (.basic 1) := by
  have hcollide : PerpDexLocation.locationHash collidingHash (.balance 1 0) =
      hashDeterministic collidingHash (.basic 1) := by decide
  exact ⟨hcollide, fun h => h.ne hcollide⟩

end Pevm.PerpDex
