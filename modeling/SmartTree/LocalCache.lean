import Mathlib.Algebra.Group.Nat.Defs
import Mathlib.Data.List.MinMax
import Mathlib.Logic.Function.Basic

/-! The compute-side key-value cache: an array of short LRU lists, each key with
three candidate lists. The hash and the clock are parameters; the migration of an
evicted node into the index cache is returned to the caller. -/
namespace SmartTree.LocalCache
variable {κ ν : Type*} [DecidableEq κ]

def windowTimeDuration : Int := 10
def bucketElementsLimit : ℕ := 2
def hashCandidateCount : ℕ := 3
def migrationThreshold : ℕ := 2

structure Node (κ ν : Type*) where
  key : κ
  value : ν
  accessTimeDeque : List Int
deriving DecidableEq

/-- `now - front > window_time_duration` with an unsigned right side: after the
clock went back the difference wraps and counts as expired. -/
def expired (now front : Int) : Bool :=
  decide (now - front < 0) || decide (windowTimeDuration < now - front)

def Node.updateAccessTime (now : Int) (n : Node κ ν) : Node κ ν :=
  { n with accessTimeDeque := n.accessTimeDeque.dropWhile (expired now) ++ [now] }

def Node.getAccessCount (now : Int) (n : Node κ ν) : ℕ :=
  (n.accessTimeDeque.dropWhile (expired now)).length

structure Cache (κ ν : Type*) where
  capacity : ℕ
  buckets : ℕ → List (Node κ ν)
  bucketElements : ℕ → ℕ
  curSize : ℕ
  sumEvictTime : ℕ
  sumMigrateTime : ℕ
  sumRejectTime : ℕ
  localCacheHit : ℕ
  localCacheMiss : ℕ

def new (capacity : ℕ) : Cache κ ν where
  capacity := capacity
  buckets := fun _ => []
  bucketElements := fun _ => 0
  curSize := 0
  sumEvictTime := 0
  sumMigrateTime := 0
  sumRejectTime := 0
  localCacheHit := 0
  localCacheMiss := 0

/-- The seeded hash is arbitrary. The salt is an `int` of the source, and extended with its sign to
the 64 bits of the seed. -/
def getHashcode (hash : κ → ℕ → ℕ) (capacity : ℕ) (key : κ) (salt : BitVec 32) : ℕ :=
  hash key (salt.signExtend 64).toNat % capacity

def getCandidateBuckets (hash : κ → ℕ → ℕ) (capacity : ℕ) (key : κ) : List ℕ :=
  (List.range hashCandidateCount).map fun i =>
    getHashcode hash capacity key (.ofNat 32 (i * 0x9e3779b9))

def shouldMigrate (now : Int) (n : Node κ ν) : Bool :=
  decide (migrationThreshold < n.getAccessCount now)

/-- The candidate scan of `insert`. The result is absent when the loop never
assigns `index`, which the source would then read uninitialised. -/
def selectBucket (c : Cache κ ν) (candidates : List ℕ) : Option ℕ :=
  (candidates.foldl (fun (acc : ℕ × Option ℕ) idx =>
    if c.bucketElements idx < acc.1 then (c.bucketElements idx, some idx) else acc)
    (bucketElementsLimit + 1, none)).2

/-- Apply `f` to the first node of the key and splice it to the front. -/
def touch (f : Node κ ν → Node κ ν) (key : κ) (bucket : List (Node κ ν)) :
    Option (Node κ ν × List (Node κ ν)) :=
  (bucket.find? fun n => decide (n.key = key)).map fun n =>
    (f n, f n :: bucket.eraseP fun n => decide (n.key = key))

def Cache.setBucket (c : Cache κ ν) (index : ℕ) (bucket : List (Node κ ν)) : Cache κ ν :=
  { c with buckets := Function.update c.buckets index bucket }

/-- Drop the last node of an overfull list; the caller migrates it when it was hot. -/
def evictBack (now : Int) (c : Cache κ ν) (index : ℕ) : Cache κ ν × Option (κ × ν) :=
  match (c.buckets index).getLast? with
  | none => (c, none)
  | some n =>
    let c' := { c.setBucket index (c.buckets index).dropLast with
      bucketElements := Function.update c.bucketElements index (c.bucketElements index - 1)
      sumEvictTime := c.sumEvictTime + 1
      curSize := c.curSize - 1 }
    if shouldMigrate now n then
      ({ c' with sumMigrateTime := c'.sumMigrateTime + 1 }, some (n.key, n.value))
    else (c', none)

/-- The locked region of `insert` for the chosen bucket. -/
def insertAt (now : Int) (c : Cache κ ν) (index : ℕ) (key : κ) (value : ν) :
    Cache κ ν × Option (κ × ν) :=
  match touch (fun n => Node.updateAccessTime now { n with value := value }) key (c.buckets index) with
  | some (_, bucket) => (c.setBucket index bucket, none)
  | none =>
    if c.capacity ≤ c.curSize then ({ c with sumRejectTime := c.sumRejectTime + 1 }, none)
    else
      let c' := { c.setBucket index (⟨key, value, []⟩ :: c.buckets index) with
        bucketElements := Function.update c.bucketElements index (c.bucketElements index + 1)
        curSize := c.curSize + 1 }
      if bucketElementsLimit < c'.bucketElements index then evictBack now c' index else (c', none)

def insert (hash : κ → ℕ → ℕ) (now : Int) (c : Cache κ ν) (key : κ) (value : ν) :
    Option (Cache κ ν × Option (κ × ν)) :=
  (selectBucket c (getCandidateBuckets hash c.capacity key)).map fun index =>
    insertAt now c index key value

/-- The candidate loop of `query`: the first list with a node of the key answers. -/
def queryFrom (now : Int) (c : Cache κ ν) (key : κ) : List ℕ → Option ν × Cache κ ν
  | [] => (none, { c with localCacheMiss := c.localCacheMiss + 1 })
  | index :: rest =>
    match touch (Node.updateAccessTime now) key (c.buckets index) with
    | some (n, bucket) =>
      (some n.value, { c.setBucket index bucket with localCacheHit := c.localCacheHit + 1 })
    | none => queryFrom now c key rest

def query (hash : κ → ℕ → ℕ) (now : Int) (c : Cache κ ν) (key : κ) : Option ν × Cache κ ν :=
  queryFrom now c key (getCandidateBuckets hash c.capacity key)

inductive Op (κ ν : Type*) where
  | insert (now : Int) (key : κ) (value : ν)
  | query (now : Int) (key : κ)

def exec (hash : κ → ℕ → ℕ) (c : Cache κ ν) : Op κ ν → Option (Cache κ ν)
  | .insert now key value => (insert hash now c key value).map Prod.fst
  | .query now key => some (query hash now c key).2

def runOps (hash : κ → ℕ → ℕ) : Cache κ ν → List (Op κ ν) → Option (Cache κ ν)
  | c, [] => some c
  | c, op :: ops => (exec hash c op).bind fun c' => runOps hash c' ops

def lastInsert (key : κ) : List (Op κ ν) → Option ν
  | [] => none
  | .insert _ k v :: ops => (lastInsert key ops).or (if k = key then some v else none)
  | .query _ _ :: ops => lastInsert key ops

end SmartTree.LocalCache
