import Pevm.VmDb

/-!
# What the origins of a read determine

A value read is known from the origins it was read with: a version has written one value to
a location, and the storage stays. Conversely a memory in which the walk down meets the same
origins gives the same read again.
-/
namespace Pevm
open VersionMap

/-- Every entry is the one that its version wrote, by the log `w` of what was written. -/
def MvMemory.Agrees {κ ν : Type} (mem : MvMemory κ ν) (w : κ → TxVersion → Option ν) : Prop :=
  ∀ l k inc x, mem.entry l k = some (.data inc x) → w l ⟨k, inc⟩ = some x

lemma MvMemory.Agrees.mono {κ ν : Type} {mem : MvMemory κ ν} {w w' : κ → TxVersion → Option ν}
    (h : mem.Agrees w) (hle : ∀ l v x, w l v = some x → w' l v = some x) : mem.Agrees w' :=
  fun l k inc x hentry => hle _ _ _ (h l k inc x hentry)

namespace LazyUpdates

/-- A lazy entry met on the way down; other values cannot be added. -/
def add (u : LazyUpdates) : MemoryValue → Option LazyUpdates
  | .lazyRecipient addition => some (u.addRecipient addition)
  | .lazySender subtraction => some (u.addSender subtraction)
  | _ => Option.none

end LazyUpdates

section Chain
variable {w : TxVersion → Option MemoryValue}

/-- The origins of an account: lazy entries, down to an absolute one or to the storage. -/
inductive Chain (w : TxVersion → Option MemoryValue) :
    LazyUpdates → List ReadOrigin → Option AccountBasic → LazyUpdates → Prop
  | storage {u : LazyUpdates} : Chain w u [.storage] none u
  | basic {u : LazyUpdates} {v : TxVersion} {info : AccountBasic} :
      w v = some (.basic info) → Chain w u [.mvMemory v] (some info) u
  | lazy {u u' final : LazyUpdates} {v : TxVersion} {x : MemoryValue} {account : Option AccountBasic}
      {origins : List ReadOrigin} : w v = some x → u.add x = some u' →
      Chain w u' origins account final → Chain w u (.mvMemory v :: origins) account final

variable {u final final' : LazyUpdates} {account account' : Option AccountBasic}
  {origins origins' : List ReadOrigin}

lemma Chain.ne_nil (h : Chain w u origins account final) : origins ≠ [] := by
  cases h <;> simp

/-- A chain ends where another one does that begins with it. -/
theorem Chain.eq_of_prefix (h : Chain w u origins account final)
    (h' : Chain w u origins' account' final') (hle : origins <+: origins') :
    origins = origins' ∧ account = account' ∧ final = final' := by
  induction h generalizing origins' with
  | storage =>
    cases h' with
    | storage => exact ⟨rfl, rfl, rfl⟩
    | basic => simp at hle
    | lazy => simp at hle
  | basic hv =>
    cases h' with
    | storage => simp at hle
    | basic hv' =>
      have hversion := hle
      simp only [List.cons_prefix_cons, ReadOrigin.mvMemory.injEq] at hversion
      obtain ⟨rfl, -⟩ := hversion
      rw [hv] at hv'
      cases hv'
      exact ⟨rfl, rfl, rfl⟩
    | lazy hv' hadd =>
      simp only [List.cons_prefix_cons, ReadOrigin.mvMemory.injEq] at hle
      obtain ⟨rfl, -⟩ := hle
      rw [hv] at hv'
      cases hv'
      cases hadd
  | lazy hv hadd hrest ih =>
    cases h' with
    | storage => simp at hle
    | basic hv' =>
      simp only [List.cons_prefix_cons, ReadOrigin.mvMemory.injEq] at hle
      obtain ⟨rfl, -⟩ := hle
      rw [hv] at hv'
      cases hv'
      cases hadd
    | lazy hv' hadd' hrest' =>
      simp only [List.cons_prefix_cons, ReadOrigin.mvMemory.injEq] at hle
      obtain ⟨rfl, hle⟩ := hle
      rw [hv] at hv'
      cases hv'
      rw [hadd] at hadd'
      cases hadd'
      obtain ⟨rfl, haccount, hfinal⟩ := ih hrest' hle
      exact ⟨rfl, haccount, hfinal⟩

/-- The origins of a walk that came to an account, or that has yet to reach the storage. -/
def closeOrigins (account : Option AccountBasic) (newOrigins : List ReadOrigin) :
    List ReadOrigin :=
  if account = none then newOrigins ++ [.storage] else newOrigins

end Chain

namespace VmDb

section Walk
variable {w : TxVersion → Option MemoryValue} {m : ℕ → Option (MemoryEntry MemoryValue)}
  {bound : ℕ} {readOrigins newOrigins newOrigins' : List ReadOrigin}
  {account : Option AccountBasic} {u u' : LazyUpdates}

/-- One entry of the walk: a lazy one is added, an absolute one ends it, others are an error. -/
def meet (readOrigins : List ReadOrigin) (m : ℕ → Option (MemoryEntry MemoryValue)) (idx : ℕ)
    (newOrigins : List ReadOrigin) (u : LazyUpdates) (x : MemoryValue) :
    Except ReadError (Option AccountBasic × LazyUpdates × List ReadOrigin) :=
  match x, u.add x with
  | .basic info, _ => .ok (some info, u, newOrigins)
  | _, some u' => walkDown readOrigins m idx newOrigins u'
  | _, none => .error .invalidMemoryValueType

lemma walkDown_data {idx inc : ℕ} {x : MemoryValue} (hm : m idx = some (.data inc x)) :
    walkDown readOrigins m (idx + 1) newOrigins u =
      if readOrigins ≠ [] ∧ readOrigins[newOrigins.length]? ≠ some (.mvMemory ⟨idx, inc⟩) then
        .error .inconsistentRead
      else meet readOrigins m idx (newOrigins ++ [.mvMemory ⟨idx, inc⟩]) u x := by
  rw [walkDown, hm]
  dsimp only
  by_cases hlength : readOrigins ≠ [] ∧ readOrigins.length = newOrigins.length
  · have hnone : readOrigins ≠ [] ∧
        readOrigins[newOrigins.length]? ≠ some (.mvMemory ⟨idx, inc⟩) := by
      refine ⟨hlength.1, ?_⟩
      rw [List.getElem?_eq_none (by omega)]
      simp
    rw [if_pos hlength, if_pos hnone]
  · rw [if_neg hlength]
    cases x <;> rfl

/-- What a walk that goes through has met is a chain, and the beginning of the one met before. -/
theorem walkDown_chain (hm : ∀ k inc x, m k = some (.data inc x) → w ⟨k, inc⟩ = some x)
    (h : walkDown readOrigins m bound newOrigins u = .ok (account, u', newOrigins')) :
    ∃ tail, Chain w u tail account u' ∧ closeOrigins account newOrigins' = newOrigins ++ tail ∧
      (readOrigins ≠ [] → newOrigins <+: readOrigins → newOrigins' <+: readOrigins) := by
  induction bound generalizing newOrigins u with
  | zero =>
    cases h
    exact ⟨[.storage], .storage, rfl, fun _ hle => hle⟩
  | succ idx ih =>
    cases he : m idx with
    | none =>
      rw [walkDown, he] at h
      exact ih h
    | some e =>
      cases e with
      | estimate =>
        rw [walkDown, he] at h
        cases h
      | data inc x =>
        rw [walkDown_data he] at h
        have hv := hm idx inc x he
        split_ifs at h with horigin
        have hle : readOrigins ≠ [] → newOrigins <+: readOrigins →
            newOrigins ++ [.mvMemory ⟨idx, inc⟩] <+: readOrigins := by
          rintro hne ⟨rest, rfl⟩
          have hhead : (newOrigins ++ rest)[newOrigins.length]? = some (.mvMemory ⟨idx, inc⟩) := by
            by_contra hother
            exact horigin ⟨hne, hother⟩
          cases rest with
          | nil => simp at hhead
          | cons origin rest =>
            simp only [List.getElem?_append_right (le_refl _), Nat.sub_self,
              List.getElem?_cons_zero, Option.some.injEq] at hhead
            subst hhead
            exact ⟨rest, by simp⟩
        unfold meet at h
        have hlazy : ∀ u₁, u.add x = some u₁ →
            walkDown readOrigins m idx (newOrigins ++ [.mvMemory ⟨idx, inc⟩]) u₁ =
              .ok (account, u', newOrigins') →
            ∃ tail, Chain w u tail account u' ∧
              closeOrigins account newOrigins' = newOrigins ++ tail ∧
              (readOrigins ≠ [] → newOrigins <+: readOrigins → newOrigins' <+: readOrigins) := by
          intro u₁ hadd hwalk
          obtain ⟨tail, hchain, hclose, hbegins⟩ := ih hwalk
          refine ⟨_, .lazy hv hadd hchain, by simpa using hclose, ?_⟩
          exact fun hne hnew => hbegins hne (hle hne hnew)
        cases x with
        | basic info =>
          cases h
          exact ⟨_, .basic hv, rfl, hle⟩
        | lazyRecipient addition => exact hlazy _ rfl h
        | lazySender subtraction => exact hlazy _ rfl h
        | codeHash | storage | selfDestructed => cases h

end Walk

end VmDb

section Matching
variable {ν : Type} {m : ℕ → Option (MemoryEntry ν)} {bound : ℕ} {origins : List ReadOrigin}

lemma originsMatch_skip (h : m bound = none) :
    MvMemory.originsMatch m (bound + 1) origins = MvMemory.originsMatch m bound origins := by
  have hclosest : closestBelow m (bound + 1) = closestBelow m bound := by
    rw [closestBelow, h]
  induction origins with
  | nil => rfl
  | cons origin origins ih =>
    cases origin with
    | mvMemory v =>
      rw [MvMemory.originsMatch, MvMemory.originsMatch, hclosest]
    | storage =>
      rw [MvMemory.originsMatch, MvMemory.originsMatch, hclosest]
      cases closestBelow m bound with
      | none => exact ih
      | some e => rfl

lemma originsMatch_mvMemory {v : TxVersion} :
    MvMemory.originsMatch m bound (.mvMemory v :: origins) = true ↔
      (∃ x, closestBelow m bound = some (v.txIdx, .data v.txIncarnation x)) ∧
        MvMemory.originsMatch m v.txIdx origins = true := by
  rw [MvMemory.originsMatch]
  cases closestBelow m bound with
  | none => simp
  | some e =>
    obtain ⟨k, e⟩ := e
    cases e with
    | estimate => simp
    | data inc x =>
      simp only [Bool.and_eq_true, decide_eq_true_eq, Option.some.injEq, Prod.mk.injEq,
        MemoryEntry.data.injEq]
      constructor
      · rintro ⟨⟨rfl, rfl⟩, h⟩
        exact ⟨⟨x, rfl, rfl, rfl⟩, h⟩
      · rintro ⟨⟨_, rfl, rfl, -⟩, h⟩
        exact ⟨⟨rfl, rfl⟩, h⟩

lemma originsMatch_storage :
    MvMemory.originsMatch m bound [.storage] = true ↔ closestBelow m bound = none := by
  rw [MvMemory.originsMatch]
  cases closestBelow m bound <;> simp [MvMemory.originsMatch]

end Matching

namespace MvMemory
variable {κ ν : Type} {mem : MvMemory κ ν} {l : κ} {j : ℕ}

/-- A location read from a version is valid while its entry is the closest one. -/
lemma validateLocation_mvMemory {v : TxVersion} :
    mem.validateLocation j l [.mvMemory v] = true ↔
      ∃ x, mem.closestEntry l j = some (v.txIdx, .data v.txIncarnation x) := by
  unfold validateLocation closestEntry
  cases mem.data l with
  | none => simp
  | some m =>
    dsimp only [Option.bind_some]
    rw [originsMatch_mvMemory]
    simp [originsMatch]

/-- And one read from the storage while there is no entry. -/
lemma validateLocation_storage :
    mem.validateLocation j l [.storage] = true ↔ mem.closestEntry l j = none := by
  unfold validateLocation closestEntry
  cases mem.data l with
  | none => simp
  | some m => exact originsMatch_storage

lemma validateLocation_entry {origins : List ReadOrigin}
    (h : mem.validateLocation j l origins = true) :
    originsMatch (mem.entry l) j origins = true := by
  unfold validateLocation at h
  cases hdata : mem.data l with
  | some m =>
    rw [hdata] at h
    have hentry : mem.entry l = m := funext (mem.entry_of_data hdata)
    rw [hentry]
    exact h
  | none =>
    rw [hdata] at h
    have hstorage : origins = [.storage] := by simpa using h
    rw [hstorage, originsMatch_storage, closestBelow_eq_none]
    intro i hi
    simp [entry, hdata]

end MvMemory

namespace VmDb

section WalkAgain
variable {w : TxVersion → Option MemoryValue} {m : ℕ → Option (MemoryEntry MemoryValue)}
  {bound : ℕ} {readOrigins newOrigins chain : List ReadOrigin}
  {account : Option AccountBasic} {u u' : LazyUpdates}

lemma originsMatch_data {idx inc : ℕ} {x : MemoryValue} {origin : ReadOrigin}
    (hidx : m idx = some (.data inc x))
    (h : MvMemory.originsMatch m (idx + 1) (origin :: chain) = true) :
    origin = .mvMemory ⟨idx, inc⟩ ∧ MvMemory.originsMatch m idx chain = true := by
  have hclosest : closestBelow m (idx + 1) = some (idx, .data inc x) := by
    rw [closestBelow, hidx]
  cases origin with
  | mvMemory v =>
    obtain ⟨⟨y, hy⟩, hrest⟩ := originsMatch_mvMemory.mp h
    rw [hclosest] at hy
    cases hy
    exact ⟨rfl, hrest⟩
  | storage =>
    rw [MvMemory.originsMatch, hclosest] at h
    cases h

/-- Where the entries match a chain, the walk goes along it. -/
theorem walkDown_of_chain (hm : ∀ k inc x, m k = some (.data inc x) → w ⟨k, inc⟩ = some x)
    (hchain : Chain w u chain account u')
    (hmatch : MvMemory.originsMatch m bound chain = true)
    (hread : readOrigins = [] ∨ readOrigins = newOrigins ++ chain) :
    ∃ newOrigins', walkDown readOrigins m bound newOrigins u = .ok (account, u', newOrigins') ∧
      closeOrigins account newOrigins' = newOrigins ++ chain := by
  induction bound generalizing newOrigins u chain with
  | zero =>
    cases hchain with
    | storage => exact ⟨newOrigins, rfl, rfl⟩
    | basic => simp [MvMemory.originsMatch, closestBelow] at hmatch
    | lazy => simp [MvMemory.originsMatch, closestBelow] at hmatch
  | succ idx ih =>
    cases he : m idx with
    | none =>
      rw [walkDown, he]
      rw [originsMatch_skip he] at hmatch
      exact ih hchain hmatch hread
    | some e =>
      cases e with
      | estimate =>
        have hclosest : closestBelow m (idx + 1) = some (idx, .estimate) := by
          rw [closestBelow, he]
        cases hchain with
        | storage => simp [MvMemory.originsMatch, hclosest] at hmatch
        | basic => simp [MvMemory.originsMatch, hclosest] at hmatch
        | lazy => simp [MvMemory.originsMatch, hclosest] at hmatch
      | data inc x =>
        have hv := hm idx inc x he
        rw [walkDown_data he]
        cases hchain with
        | storage =>
          have horigin := (originsMatch_data he hmatch).1
          cases horigin
        | @basic _ v info hbasic =>
          obtain ⟨horigin, -⟩ := originsMatch_data he hmatch
          cases horigin
          rw [hv] at hbasic
          cases hbasic
          rw [if_neg (by rcases hread with rfl | rfl <;> simp)]
          exact ⟨_, rfl, rfl⟩
        | @lazy _ u₁ _ v x' _ rest hlazy hadd hrest =>
          obtain ⟨horigin, hbelow⟩ := originsMatch_data he hmatch
          cases horigin
          rw [hv] at hlazy
          cases hlazy
          rw [if_neg (by rcases hread with rfl | rfl <;> simp)]
          have hmeet : ∀ origins, meet readOrigins m idx origins u x =
              walkDown readOrigins m idx origins u₁ := by
            intro origins
            unfold meet
            rw [hadd]
            cases x <;> first | rfl | cases hadd
          have hread' : readOrigins = [] ∨
              readOrigins = (newOrigins ++ [.mvMemory ⟨idx, inc⟩]) ++ rest := by
            simpa using hread
          obtain ⟨newOrigins', hwalk, hclose⟩ := ih hrest hbelow hread'
          rw [hmeet]
          exact ⟨newOrigins', hwalk, by simpa using hclose⟩

end WalkAgain

section Find
variable {κ Code Bytecode : Type} {env : VmEnv κ Code Bytecode} {address : Address}
  {readOrigins newOrigins newOrigins' : List ReadOrigin} {u : LazyUpdates}
  {account : Option AccountBasic}

/-- The account below the lazy updates: the one that was met, or what the storage says. -/
def settle (storage : Storage Code) (address : Address) (met : Option AccountBasic)
    (u : LazyUpdates) : Except ReadError (Option AccountBasic) :=
  match met with
  | some account => .ok (some account)
  | none =>
    match storage.basic address with
    | .ok (some basic) => .ok (some basic)
    | .ok none => .ok (if 0 < u.balanceAddition then some .default else none)
    | .error message => .error (.storageError message)

/-- The origins of a read that reaches the storage, checked against those of an earlier read. -/
def fallBackOrigins (readOrigins newOrigins : List ReadOrigin) :
    Except ReadError (List ReadOrigin) :=
  if readOrigins = [] then .ok (newOrigins ++ [.storage])
  else if readOrigins.length ≠ newOrigins.length + 1 ∨ readOrigins.getLast? ≠ some .storage then
    .error .inconsistentRead
  else .ok newOrigins

lemma fallBack_eq_bind : fallBack env address readOrigins u newOrigins =
    fallBackOrigins readOrigins newOrigins >>= fun origins =>
      settle env.storage address none u >>= fun account => .ok (account, origins) := by
  unfold fallBack fallBackOrigins settle
  cases env.storage.basic address with
  | error message => split_ifs <;> rfl
  | ok answer => cases answer <;> split_ifs <;> rfl

lemma fallBackOrigins_eq_ok (h : fallBackOrigins readOrigins newOrigins = .ok newOrigins') :
    (readOrigins = [] → newOrigins' = newOrigins ++ [.storage]) ∧
      (readOrigins ≠ [] → readOrigins.length = newOrigins.length + 1 ∧
        readOrigins.getLast? = some .storage) := by
  unfold fallBackOrigins at h
  split_ifs at h with hnone hother
  · cases h
    exact ⟨fun _ => rfl, fun hne => absurd hnone hne⟩
  · push Not at hother
    exact ⟨fun hnil => absurd hnil hnone, fun _ => hother⟩

lemma fallBackOrigins_of_read
    (hread : readOrigins = [] ∨ readOrigins = newOrigins ++ [.storage]) :
    ∃ newOrigins', fallBackOrigins readOrigins newOrigins = .ok newOrigins' ∧
      (readOrigins = [] → newOrigins' = newOrigins ++ [.storage]) := by
  unfold fallBackOrigins
  rcases hread with rfl | rfl
  · exact ⟨_, rfl, fun _ => rfl⟩
  · rw [if_neg (by simp), if_neg (by simp)]
    exact ⟨_, rfl, by simp⟩

variable [DecidableEq κ] {db : VmDb κ} {l : κ} {w : κ → TxVersion → Option MemoryValue}

/-- The origins on record are those of an account read before, or there are none. -/
def HasChain (w : κ → TxVersion → Option MemoryValue) (l : κ) (origins : List ReadOrigin) : Prop :=
  origins = [] ∨ ∃ account u, Chain (w l) .none origins account u

/-- An account found is known from a chain of origins, the one that an earlier read has met. -/
theorem findAccount_chain (hagrees : env.mvMemory.Agrees w)
    (hchain : HasChain w l (db.readOrigins l))
    (h : db.findAccount env address l = .ok (account, u, newOrigins)) :
    ∃ chain met, Chain (w l) .none chain met u ∧ settle env.storage address met u = .ok account ∧
      (db.readOrigins l = [] → newOrigins = chain) ∧
      (db.readOrigins l ≠ [] → db.readOrigins l = chain) := by
  obtain ⟨⟨met, u', origins⟩, hentries, hfind⟩ := Fallible.bind_eq_ok.mp h
  rw [readEntries_eq] at hentries
  obtain ⟨chain, hwalked, hclose, hbegins⟩ := walkDown_chain (hagrees l) hentries
  rw [List.nil_append] at hclose
  cases met with
  | some met =>
    cases hfind
    subst hclose
    refine ⟨_, some met, hwalked, rfl, fun _ => rfl, fun hne => ?_⟩
    obtain hnil | ⟨account', u', hbefore⟩ := hchain
    · exact absurd hnil hne
    · exact (hwalked.eq_of_prefix hbefore (hbegins hne List.nil_prefix)).1.symm
  | none =>
    obtain ⟨⟨account', origins'⟩, hfall, hrest⟩ := Fallible.bind_eq_ok.mp hfind
    cases hrest
    rw [fallBack_eq_bind] at hfall
    obtain ⟨_, horigins, hfall⟩ := Fallible.bind_eq_ok.mp hfall
    obtain ⟨_, hsettle, hfall⟩ := Fallible.bind_eq_ok.mp hfall
    cases hfall
    obtain ⟨hnil, hlast⟩ := fallBackOrigins_eq_ok horigins
    have hclose' : origins ++ [.storage] = chain := hclose
    refine ⟨chain, none, hwalked, hsettle, fun hnone => (hnil hnone).trans hclose', fun hne => ?_⟩
    obtain ⟨hlength, hstorage⟩ := hlast hne
    obtain ⟨rest, hrest⟩ := hbegins hne List.nil_prefix
    rw [← hrest] at hlength hstorage ⊢
    rw [← hclose']
    have hone : rest.length = 1 := by
      rw [List.length_append] at hlength
      omega
    obtain ⟨origin, rfl⟩ := List.length_eq_one_iff.mp hone
    rw [List.getLast?_concat, Option.some.injEq] at hstorage
    rw [hstorage]

/-- Where the entries match the chain, the account is found again. -/
theorem findAccount_of_chain {chain : List ReadOrigin} {met : Option AccountBasic}
    (hagrees : env.mvMemory.Agrees w) (hchain : Chain (w l) .none chain met u)
    (hsettle : settle env.storage address met u = .ok account)
    (hvalid : env.mvMemory.validateLocation db.txIdx l chain = true)
    (hread : db.readOrigins l = [] ∨ db.readOrigins l = chain) :
    ∃ newOrigins, db.findAccount env address l = .ok (account, u, newOrigins) ∧
      (db.readOrigins l = [] → newOrigins = chain) := by
  have hmatch := MvMemory.validateLocation_entry hvalid
  have hread' : db.readOrigins l = [] ∨ db.readOrigins l = [] ++ chain := hread
  obtain ⟨origins, hwalk, hclose⟩ := walkDown_of_chain (hagrees l) hchain hmatch hread'
  rw [List.nil_append] at hclose
  unfold findAccount
  rw [readEntries_eq, hwalk, Fallible.ok_bind]
  cases met with
  | some met =>
    cases hsettle
    exact ⟨origins, rfl, fun _ => hclose⟩
  | none =>
    have hclose' : origins ++ [.storage] = chain := hclose
    rw [← hclose'] at hread ⊢
    obtain ⟨origins', horigins, hnil⟩ := fallBackOrigins_of_read hread
    simp only [fallBack_eq_bind, horigins, hsettle, Fallible.ok_bind]
    exact ⟨origins', rfl, hnil⟩

end Find

end VmDb

end Pevm
