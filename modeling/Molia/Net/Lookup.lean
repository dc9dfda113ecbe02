import Molia.Net.Routing
import Molia.Store.Basic

/-!
# Iterative lookups

The state of one FIND_NODE or FIND_VALUE: a shortlist of candidates sorted by distance to the
target, the requests in flight, and what has been found. Instants and durations are nanoseconds; a
method that reads the clock in the source takes the reading here.
-/

namespace Molia

inductive LookupKind where
  | findNode
  | findValue
deriving DecidableEq

inductive PrivacyMode where
  | none
  | blind
  | relay
deriving DecidableEq

/-- One millisecond. -/
def millis : ℕ := 1000000

/-- A request that has been sent and not answered. -/
structure InFlight where
  id : NodeId
  correlation : UInt32
  sentAt : ℕ
deriving DecidableEq

structure Lookup where
  kind : LookupKind
  target : Key
  privacy : PrivacyMode
  k : ℕ
  alpha : ℕ
  started : ℕ
  budget : ℕ
  queried : List NodeId
  inFlight : List InFlight
  shortlist : List PeerInfo
  best : List NodeId
  foundRecord : Option StoredRecord
  providers : List (NodeId × Bytes)
  retries : List NodeId
  done : Bool
  probeTargets : List Key
deriving DecidableEq

def sortShortlist (list : List PeerInfo) (target : Key) : List PeerInfo :=
  list.insertionSort (closerTo target)

/-- Flip the lowest bit of byte `i`. -/
def flipBit (b : Bytes32) (i : ℕ) : Bytes32 where
  val := b.val.modify i (· ^^^ 1)
  length_val := by rw [List.length_modify, b.length_val]

/-- Neighbour keys used as blinding probes. -/
def neighborProbes (target : Key) : List Key := [⟨flipBit target.val 31⟩, ⟨flipBit target.val 30⟩]

namespace Lookup

/-- The capacity of `inFlight` and of a batch. -/
def batchCap : ℕ := 8

def new (now : ℕ) (kind : LookupKind) (target : Key) (seeds : List PeerInfo)
    (privacy : PrivacyMode) : Lookup where
  kind := kind
  target := target
  privacy := privacy
  k := kDefault
  alpha := alphaDefault
  started := now
  budget := 1500 * millis
  queried := []
  inFlight := []
  shortlist := sortShortlist seeds target
  best := []
  foundRecord := none
  providers := []
  retries := []
  done := false
  probeTargets := if privacy = .blind then neighborProbes target else []

/-- The loop of `next_batch` over the shortlist; it stops at the first candidate beyond `alpha`. -/
def fillBatch (l : Lookup) : List PeerInfo → List PeerInfo → List PeerInfo
  | [], batch => batch
  | p :: ps, batch =>
    if p.id ∈ l.queried then fillBatch l ps batch
    else if l.inFlight.any fun f ↦ f.id = p.id then fillBatch l ps batch
    else if batch.length + l.inFlight.length ≥ l.alpha then batch
    else fillBatch l ps (tryPush batchCap batch p)

def nextBatch (l : Lookup) (now : ℕ) : List PeerInfo × Lookup :=
  if l.done = true ∨ now - l.started ≥ l.budget then ([], { l with done := true })
  else
    let batch := l.fillBatch l.shortlist []
    (batch, if batch = [] ∧ l.inFlight = [] then { l with done := true } else l)

def noteSent (l : Lookup) (now : ℕ) (id : NodeId) (correlation : UInt32) : Lookup :=
  { l with
    queried := if id ∈ l.queried then l.queried else l.queried ++ [id]
    inFlight := tryPush batchCap l.inFlight ⟨id, correlation, now⟩ }

/-- A request is dead after 400 milliseconds. -/
def dead (now : ℕ) (f : InFlight) : Bool := decide (now - f.sentAt > 400 * millis)

/-- A peer that times out for the first time may be asked once more. -/
def allowRetry (l : Lookup) (id : NodeId) : Lookup :=
  if id ∈ l.retries then l
  else { l with retries := l.retries ++ [id], queried := l.queried.filter (· ≠ id) }

def onTimeouts (l : Lookup) (now : ℕ) : List NodeId × Lookup :=
  let deadIds := (l.inFlight.filter (dead now)).map InFlight.id
  let l := { l with inFlight := l.inFlight.filter fun f ↦ !dead now f }
  let l := deadIds.foldl allowRetry l
  (deadIds, if deadIds ≠ [] then { l with alpha := min (l.alpha + 1) alphaMax } else l)

/-- Append the peers whose ids are new. -/
def mergePeers (shortlist peers : List PeerInfo) : List PeerInfo :=
  peers.foldl (fun s p ↦ if s.any fun q ↦ q.id = p.id then s else s ++ [p]) shortlist

/-- Forget the requests to `sender`. -/
def answered (l : Lookup) (sender : NodeId) : Lookup :=
  { l with inFlight := l.inFlight.filter fun f ↦ f.id ≠ sender }

def onCloser (l : Lookup) (sender : NodeId) (peers : List PeerInfo) (rttUs : UInt32) : Lookup :=
  let l := l.answered sender
  let l := if rttUs < 80000 then { l with alpha := max (l.alpha - 1) alphaMin } else l
  let shortlist := sortShortlist (mergePeers l.shortlist peers) l.target
  let nowBest := (shortlist.take l.k).map PeerInfo.id
  let stop := nowBest = l.best ∧ l.inFlight = [] ∧ ∀ id ∈ nowBest, id ∈ l.queried
  { l with shortlist, best := nowBest, done := if stop then true else l.done }

def onRecord (l : Lookup) (sender : NodeId) (rec : StoredRecord) : Lookup :=
  { l.answered sender with foundRecord := some rec, done := true }

/-- Append the providers whose ids are new. -/
def mergeProviders (known new : List (NodeId × Bytes)) : List (NodeId × Bytes) :=
  new.foldl (fun s p ↦ if s.any fun q ↦ q.1 = p.1 then s else s ++ [p]) known

def onProviders (l : Lookup) (sender : NodeId) (providers : List (NodeId × Bytes))
    (closer : List PeerInfo) : Lookup :=
  let l := l.answered sender
  { l with providers := mergeProviders l.providers providers }.onCloser sender closer 0

def finishPeers (l : Lookup) : List PeerInfo := l.shortlist.take l.k

end Lookup

end Molia
