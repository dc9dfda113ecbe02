import Mathlib.Data.List.Sort
import Mathlib.Logic.Function.Basic
import Molia.Core.Types

/-!
# The routing table

256 buckets, one for each position of the highest bit in which a peer differs from this node, and
beside each bucket a short replacement list. A bucket is ordered by recency: the last entry is the
one most recently seen. Time is an argument, in nanoseconds.

A `Vec` of 256 buckets is a function from bucket numbers to lists; `allPeers` reads the numbers
below 256 in order, and `bucketIndex` never gives another.
-/

namespace Molia

structure PeerEntry where
  info : PeerInfo
  lastSeen : ℕ
  failCount : UInt32
  srttUs : UInt32
deriving DecidableEq

def PeerEntry.id (e : PeerEntry) : NodeId := e.info.id

structure RoutingTable where
  selfId : NodeId
  k : ℕ
  buckets : ℕ → List PeerEntry
  replacement : ℕ → List PeerEntry

/-- The `saturating_add` of a `u32` counter. -/
def saturatingSucc (n : UInt32) : UInt32 := if n = 0xFFFFFFFF then n else n + 1

/-- The smoothed round trip time; the sum wraps as the release build does. -/
def ewma (old sample : UInt32) : UInt32 := (old * 7 + sample) / 8

/-- The `saturating_mul` of `u32`. -/
def saturatingMul (a b : UInt32) : UInt32 :=
  if a.toNat * b.toNat ≤ 0xFFFFFFFF then a * b else 0xFFFFFFFF

/-- The `clamp` of `u32`. -/
def clamp (x lo hi : UInt32) : UInt32 := if x < lo then lo else if x > hi then hi else x

/-- The order by distance to `target`, ties broken by round trip time. -/
def closerTo (target : Key) (a b : PeerInfo) : Prop :=
  let da := (xorDistance a.id.val target.val).val
  let db := (xorDistance b.id.val target.val).val
  da < db ∨ (da = db ∧ a.rttMs ≤ b.rttMs)

instance (target : Key) : DecidableRel (closerTo target) := fun _ _ ↦
  inferInstanceAs (Decidable (_ ∨ _))

namespace RoutingTable

def new (selfId : NodeId) : RoutingTable where
  selfId := selfId
  k := kDefault
  buckets _ := []
  replacement _ := []

/-- The `/24` prefix of an IPv4 address. -/
def prefix24 (addr : SocketAddr) : Option (UInt8 × UInt8 × UInt8) :=
  match addr.ip with
  | .v4 a b c _ => some (a, b, c)
  | .v6 _ => none

/-- At most eight peers of one IPv4 `/24` in a bucket. -/
def prefixOk (t : RoutingTable) (info : PeerInfo) : Bool :=
  match info.primaryAddr.bind prefix24 with
  | none => true
  | some p =>
    let i := bucketIndex t.selfId info.id
    (t.buckets i).countP (fun e ↦ e.info.primaryAddr.bind prefix24 == some p) < 8

def setBucket (t : RoutingTable) (i : ℕ) (b : List PeerEntry) : RoutingTable :=
  { t with buckets := Function.update t.buckets i b }

def setReplacement (t : RoutingTable) (i : ℕ) (b : List PeerEntry) : RoutingTable :=
  { t with replacement := Function.update t.replacement i b }

/-- The entry of a peer seen for the first time. -/
def freshEntry (now : ℕ) (info : PeerInfo) : PeerEntry :=
  { info, lastSeen := now, failCount := 0, srttUs := 200000 }

/-- Insert or touch. The result is the least recently seen entry if the bucket is full. -/
def insert (t : RoutingTable) (now : ℕ) (info : PeerInfo) : Option PeerEntry × RoutingTable :=
  if info.id = t.selfId then (none, t)
  else if t.prefixOk info = false then (none, t)
  else
    let i := bucketIndex t.selfId info.id
    let b := t.buckets i
    match b.find? fun e ↦ e.id = info.id with
    | some e =>
      -- all that was known of the peer is replaced, its addresses and its key included
      let e' := { e with info, lastSeen := now, failCount := 0 }
      (none, t.setBucket i (b.eraseP (fun e ↦ e.id = info.id) ++ [e']))
    | none =>
      if b.length < min t.k kMax then (none, t.setBucket i (b ++ [freshEntry now info]))
      else if (t.replacement i).length < 8 then
        -- a peer may stand in the replacement list several times
        (b.head?, t.setReplacement i (t.replacement i ++ [freshEntry now info]))
      else (b.head?, t)

def evictAndReplace (t : RoutingTable) (dead : NodeId) : RoutingTable :=
  let i := bucketIndex t.selfId dead
  let t := t.setBucket i ((t.buckets i).filter fun e ↦ e.id ≠ dead)
  match (t.replacement i).getLast? with
  | some e =>
    (t.setReplacement i (t.replacement i).dropLast).setBucket i (tryPush kMax (t.buckets i) e)
  | none => t

/-- Rewrite the first entry of `id` in a bucket. -/
def updateFirst (id : NodeId) (f : PeerEntry → PeerEntry) : List PeerEntry → List PeerEntry
  | [] => []
  | e :: es => if e.id = id then f e :: es else e :: updateFirst id f es

/-- The entry after an answer with the given round trip time. -/
def touched (now : ℕ) (rttUs : UInt32) (e : PeerEntry) : PeerEntry :=
  let srtt := ewma e.srttUs rttUs
  { e with
    failCount := 0, lastSeen := now, srttUs := srtt, info := { e.info with rttMs := srtt / 1000 } }

def touchOk (t : RoutingTable) (now : ℕ) (id : NodeId) (rttUs : UInt32) : RoutingTable :=
  let i := bucketIndex t.selfId id
  t.setBucket i (updateFirst id (touched now rttUs) (t.buckets i))

def get (t : RoutingTable) (id : NodeId) : Option PeerEntry :=
  (t.buckets (bucketIndex t.selfId id)).find? fun e ↦ e.id = id

/-- How long to wait for an answer of a peer: twice its round trip time, within bounds. -/
def timeoutUs (t : RoutingTable) (id : NodeId) : UInt32 :=
  let srtt := ((t.get id).map PeerEntry.srttUs).getD 200000
  clamp (saturatingMul srtt 2) 50000 600000

/-- One more failure; the third evicts the peer. -/
def markFail (t : RoutingTable) (id : NodeId) : RoutingTable :=
  match t.get id with
  | none => t
  | some e =>
    let i := bucketIndex t.selfId id
    let fails := saturatingSucc e.failCount
    let t := t.setBucket i (updateFirst id (fun e ↦ { e with failCount := fails }) (t.buckets i))
    if fails ≥ 3 then t.evictAndReplace id else t

def allPeers (t : RoutingTable) : List PeerEntry := (List.range 256).flatMap t.buckets

/-- The sort is stable, as `sort_by` is. -/
def closest (t : RoutingTable) (target : Key) (n : ℕ) : List PeerInfo :=
  ((t.allPeers.map PeerEntry.info).insertionSort (closerTo target)).take (min n kMax)

end RoutingTable

end Molia
