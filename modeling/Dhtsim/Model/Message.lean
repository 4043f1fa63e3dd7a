import Dhtsim.Model.Key

/-!
# Messages, callback sets, and what is outside the repository

`message.hpp`, `callback.hpp`, `kademlia/bucket.hpp` and `kademlia/message_structs.hpp`. The code that is not in the repository
(libnop, OpenSSL's `SHA1`, the order `std::sort` leaves equal elements in) is a context `Γ : Ctx`, about which nothing is
assumed but what its fields say.
-/

namespace Dhtsim

/-- A message. Its `hops` field, which the network counts up and nothing reads, is left out. -/
structure Message (A : Type) where
  type : UInt32
  originator : A
  destination : A
  tag : Tag
  data : List UInt8
deriving DecidableEq

/-- A set of functions to run on success and on failure. A function is a value of `F`, which says what it captured. -/
structure CallbackSet (F : Type) where
  successFns : List F
  failureFns : List F
deriving DecidableEq

namespace CallbackSet

variable {F G : Type}

def empty : CallbackSet F := ⟨[], []⟩

/-- A set of one function of each kind. -/
def of (successFn failureFn : F) : CallbackSet F := ⟨[successFn], [failureFn]⟩

def isEmpty (c : CallbackSet F) : Bool := c.successFns.isEmpty && c.failureFns.isEmpty

/-- `operator+=`. -/
def add (c other : CallbackSet F) : CallbackSet F :=
  ⟨c.successFns ++ other.successFns, c.failureFns ++ other.failureFns⟩

/-- The functions that run: those of success or those of failure. -/
def fns (c : CallbackSet F) (success : Bool) : List F := if success then c.successFns else c.failureFns

def map (f : F → G) (c : CallbackSet F) : CallbackSet G := ⟨c.successFns.map f, c.failureFns.map f⟩

@[simp] theorem fns_add (c other : CallbackSet F) (ok : Bool) : (c.add other).fns ok = c.fns ok ++ other.fns ok := by
  cases ok <;> rfl

@[simp] theorem fns_empty (ok : Bool) : (empty : CallbackSet F).fns ok = [] := by
  cases ok <;> rfl

@[simp] theorem fns_map (f : F → G) (c : CallbackSet F) (ok : Bool) : (c.map f).fns ok = (c.fns ok).map f := by
  cases ok <;> rfl

end CallbackSet

/-- One entry of a bucket. -/
structure BucketEntry where
  key : KademliaKey
  address : UInt32
  lastSeen : Time
deriving DecidableEq

structure PingMessage where
  pingOrPong : Bool
  sender : KademliaKey
deriving DecidableEq

structure FindNodesMessage where
  sender : KademliaKey
  request : Bool
  findValue : Bool
  target : KademliaKey
  numFound : UInt32
  nearest : List BucketEntry
  valueFound : Bool
  value : List UInt8
deriving DecidableEq

structure StoreMessage where
  request : Bool
  sender : KademliaKey
  value : List UInt8
deriving DecidableEq

/-- What one step leaves to chance: the tag `randomTag` would draw, the value `randomizeKey` would hash, and what is found in
the fields that a default constructor leaves unset. -/
structure Choice where
  tag : Tag
  randval : UInt64
  request : Bool
  numFound : UInt32
deriving DecidableEq

def PingMessage.ping (sender : KademliaKey) : PingMessage := ⟨true, sender⟩

def PingMessage.pong (sender : KademliaKey) : PingMessage := ⟨false, sender⟩

/-- `FindNodesMessage fm;` leaves `request` and `num_found` unset. -/
def FindNodesMessage.unset (ch : Choice) : FindNodesMessage where
  sender := KademliaKey.zero
  request := ch.request
  findValue := false
  target := KademliaKey.zero
  numFound := ch.numFound
  nearest := []
  valueFound := false
  value := []

/-- `StoreMessage sm;` leaves `request` unset. -/
def StoreMessage.unset (ch : Choice) : StoreMessage := ⟨ch.request, KademliaKey.zero, []⟩

/-- libnop's serializer of one structure. Reading updates a structure and reports its status to nobody: on bad data the
structure may be changed in part, or not at all. -/
structure Codec (T : Type) where
  write : T → List UInt8
  read : List UInt8 → T → T

/-- Reading back what was written gives what was written. -/
def Codec.Inverts {T : Type} (c : Codec T) : Prop := ∀ x y, c.read (c.write x) y = x

/-- A comparison that `std::sort` accepts: a strict weak order. -/
structure StrictWeak {T : Type} (lt : T → T → Bool) : Prop where
  asymm : ∀ a b, lt a b = true → lt b a = false
  negTrans : ∀ a b c, lt a b = false → lt b c = false → lt a c = false

/-- The code outside the repository. -/
structure Ctx where
  /-- OpenSSL's `SHA1`. -/
  sha1 : List UInt8 → KademliaKey
  ping : Codec PingMessage
  findNodes : Codec FindNodesMessage
  store : Codec StoreMessage
  /-- `std::sort`, which is free to leave equal elements in any order. -/
  sort : (BucketEntry → BucketEntry → Bool) → List BucketEntry → List BucketEntry
  sort_perm : ∀ lt l, (sort lt l).Perm l
  sort_sorted : ∀ lt l, StrictWeak lt → (sort lt l).Pairwise (fun a b => lt b a = false)

/-- libnop decodes what it encoded. -/
structure Ctx.Decodes (Γ : Ctx) : Prop where
  ping : Γ.ping.Inverts
  findNodes : Γ.findNodes.Inverts
  store : Γ.store.Inverts

/-- The bytes of a `uint64_t` in memory. -/
def bytesOf (x : UInt64) : List UInt8 := (List.range 8).map (fun i => (x >>> (8 * UInt64.ofNat i)).toUInt8)

/-- `randomizeKey`: a random key with SHA1. -/
def randomizeKey (Γ : Ctx) (ch : Choice) : KademliaKey := Γ.sha1 (bytesOf ch.randval)

/-- `sortByDistanceTo`: sort entries by the XOR distance of their keys to the target. -/
def sortByDistanceTo (Γ : Ctx) (target : KademliaKey) (bucket : List BucketEntry) : List BucketEntry :=
  Γ.sort (fun e1 e2 => keyDistanceCmp target e1.key e2.key) bucket

theorem mem_sortByDistanceTo {Γ : Ctx} {target : KademliaKey} {l : List BucketEntry} {e : BucketEntry} :
    e ∈ sortByDistanceTo Γ target l ↔ e ∈ l :=
  (Γ.sort_perm _ l).mem_iff

/-- Comparing distances is a strict weak order of the entries. -/
theorem strictWeak_keyDistanceCmp (target : KademliaKey) :
    StrictWeak (fun e1 e2 : BucketEntry => keyDistanceCmp target e1.key e2.key) where
  asymm a b h := by
    simp only [keyDistanceCmp_eq, decide_eq_true_eq, decide_eq_false_iff_not] at h ⊢
    exact not_lt_of_gt h
  negTrans a b c h1 h2 := by
    simp only [keyDistanceCmp_eq, decide_eq_false_iff_not, not_lt] at h1 h2 ⊢
    exact le_trans h2 h1

/-- The entries are sorted by distance. -/
theorem sorted_sortByDistanceTo (Γ : Ctx) (target : KademliaKey) (l : List BucketEntry) :
    (sortByDistanceTo Γ target l).Pairwise (fun a b => a.key.distanceTo target ≤ b.key.distanceTo target) := by
  refine (Γ.sort_sorted _ l (strictWeak_keyDistanceCmp target)).imp ?_
  intro a b h
  simpa [keyDistanceCmp_eq] using h

/-- Entries of different keys are sorted strictly. -/
theorem strictSorted_sortByDistanceTo {Γ : Ctx} {target : KademliaKey} {l : List BucketEntry} (h : (l.map (·.key)).Nodup) :
    (sortByDistanceTo Γ target l).Pairwise (fun a b => a.key.distanceTo target < b.key.distanceTo target) := by
  have hperm : (sortByDistanceTo Γ target l).Perm l := Γ.sort_perm _ l
  have hnodup := List.pairwise_map.1 ((hperm.map (·.key)).nodup_iff.2 h)
  refine (sorted_sortByDistanceTo Γ target l).imp₂ ?_ hnodup
  intro a b hle hne
  exact lt_of_le_of_ne hle (fun he => hne (eq_of_distanceTo_eq he))

end Dhtsim
