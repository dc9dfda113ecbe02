import Mathlib.Data.List.Sort
import Mathlib.Algebra.Order.Ring.Rat
import Mathlib.Data.Int.Log
import Mathlib.Data.Rat.Floor
import Molia.Core.Crypto
import Molia.Net.Lookup

/-!
# Admission, relaying, NAT traversal and timers

The small state machines a shard keeps beside its tables: token buckets and scores against floods,
the byte budget of a relay, hole-punching attempts, and the timing wheel. Instants are nanoseconds.
Token counts and scores are floating-point numbers in the source. The operations on a score are
rounded here as they are there; token counts are exact rationals, and not rounded.
-/

namespace Molia

/-! ## Token buckets and scores -/

/-- One second. -/
def second : ℕ := 1000 * millis

structure TokenBucket where
  tokens : ℚ
  cap : ℚ
  ratePerS : ℚ
  last : ℕ
deriving DecidableEq

namespace TokenBucket

def new (now : ℕ) (cap ratePerS : ℚ) : TokenBucket := { tokens := cap, cap, ratePerS, last := now }

/-- Refill for the time passed, then take `n` tokens if they are there. The count is exact, where
the source rounds it to a double. -/
def take (b : TokenBucket) (now : ℕ) (n : ℚ) : Bool × TokenBucket :=
  let dt : ℚ := ((now - b.last : ℕ) : ℚ) / (second : ℚ)
  let tokens := min (b.tokens + dt * b.ratePerS) b.cap
  if tokens ≥ n then (true, { b with tokens := tokens - n, last := now })
  else (false, { b with tokens := tokens, last := now })

end TokenBucket

/-- The nearest integer, and of two the even one. -/
def roundEven (q : ℚ) : ℤ :=
  let below := ⌊q⌋
  if q - below < 1 / 2 ∨ q - below = 1 / 2 ∧ below % 2 = 0 then below else below + 1

/-- The nearest `f64` of a number that is in its range. -/
def roundF64 (q : ℚ) : ℚ :=
  -- 53 digits, and fewer of a number so small that its last digit would be below `2 ^ (-1074)`
  let ulp : ℚ := 2 ^ max (Int.log 2 |q| - 52) (-1074)
  roundEven (q / ulp) * ulp

/-- The score is an `f64`. -/
structure Score where
  ewma : ℚ
  quarantine : UInt8
deriving DecidableEq

/-- The score of a peer never seen before. -/
def Score.default : Score := { ewma := 1 / 2, quarantine := 0 }

structure Sybil where
  ipBuckets : HashMap IpAddr TokenBucket
  prefixBuckets : HashMap (UInt8 × UInt8 × UInt8) TokenBucket
  peerBuckets : HashMap NodeId TokenBucket
  scores : HashMap NodeId Score

namespace Sybil

def new : Sybil where
  ipBuckets := ∅
  prefixBuckets := ∅
  peerBuckets := ∅
  scores := ∅

/-- One token of the source address, and one of its `/24` if it is an IPv4 address. -/
def allowPreHandshake (s : Sybil) (now : ℕ) (src : SocketAddr) : Bool × Sybil :=
  let b := (s.ipBuckets.lookup src.ip).getD (TokenBucket.new now 20 10)
  let (ok, b) := b.take now 1
  let s := { s with ipBuckets := s.ipBuckets.insert src.ip b }
  if ok = false then (false, s)
  else
    match RoutingTable.prefix24 src with
    | none => (true, s)
    | some p =>
      let pb := (s.prefixBuckets.lookup p).getD (TokenBucket.new now 80 40)
      let (ok, pb) := pb.take now 1
      (ok, { s with prefixBuckets := s.prefixBuckets.insert p pb })

/-- The capacity is chosen when the bucket is made, from the quarantine level at that time. -/
def allowPeer (s : Sybil) (now : ℕ) (id : NodeId) (cost : ℚ) : Bool × Sybil :=
  let q := ((s.scores.lookup id).map Score.quarantine).getD 0
  let cap : ℚ := if q > 0 then 4 else 40
  let b := (s.peerBuckets.lookup id).getD (TokenBucket.new now cap (cap / 2))
  let (ok, b) := b.take now cost
  (ok, { s with peerBuckets := s.peerBuckets.insert id b })

def reward (s : Sybil) (id : NodeId) : Sybil :=
  let sc := (s.scores.lookup id).getD Score.default
  let e := roundF64 (roundF64 (sc.ewma * roundF64 (8 / 10)) + roundF64 (2 / 10))
  let sc := { sc with ewma := e, quarantine := if e > roundF64 (7 / 10) then 0 else sc.quarantine }
  { s with scores := s.scores.insert id sc }

def penalize (s : Sybil) (id : NodeId) : Sybil :=
  let sc := (s.scores.lookup id).getD Score.default
  let e := roundF64 (sc.ewma * roundF64 (7 / 10))
  let q :=
    if e < roundF64 (2 / 10) then min (if sc.quarantine = 255 then 255 else sc.quarantine + 1) 3
    else sc.quarantine
  { s with scores := s.scores.insert id { ewma := e, quarantine := q } }

end Sybil

/-! ## Relaying -/

structure RelayBudget where
  egress : UInt64
  relayed : UInt64
deriving DecidableEq

namespace RelayBudget

def new : RelayBudget := { egress := 0, relayed := 0 }

def relayBudgetNum : UInt64 := 1
def relayBudgetDen : UInt64 := 10

def allow (b : RelayBudget) (bytes : UInt64) : Bool × RelayBudget :=
  let next := b.relayed + bytes
  if b.egress = 0 then (true, { b with relayed := next })
  else if next * relayBudgetDen ≤ b.egress * relayBudgetNum + b.egress then
    (true, { b with relayed := next })
  else (false, b)

def onEgress (b : RelayBudget) (bytes : UInt64) : RelayBudget :=
  { b with egress := b.egress + bytes }

end RelayBudget

structure RelayState where
  enabled : Bool
  budget : RelayBudget
  preferControl : Bool
deriving DecidableEq

namespace RelayState

def new (enabled : Bool) : RelayState :=
  { enabled, budget := RelayBudget.new, preferControl := true }

def forward (r : RelayState) (bytes : ℕ) (control : Bool) : Bool × RelayState :=
  if r.enabled = false ∧ control = false then (false, r)
  else
    let (ok, b) := (r.budget.onEgress (UInt64.ofNat bytes)).allow (UInt64.ofNat bytes)
    (ok, { r with budget := b })

end RelayState

/-- The first candidate whose bucket differs from that of the destination. -/
def pickRelay (selfId dest : NodeId) (candidates : List (NodeId × SocketAddr)) :
    Option SocketAddr :=
  let db := bucketIndex selfId dest
  (candidates.find? fun c ↦ bucketIndex selfId c.1 ≠ db).map Prod.snd

/-! ## NAT traversal -/

def keepalive : ℕ := 20 * second
def consentTtl : ℕ := 30 * 60 * second

structure EndpointHint where
  declared : SocketAddr
  observed : Option SocketAddr
  lastOk : ℕ
deriving DecidableEq

def EndpointHint.fresh (e : EndpointHint) (now : ℕ) : Bool := decide (now - e.lastOk < consentTtl)

/-- The two ends of a simultaneous-open window. -/
def punchDeadlines (now : ℕ) : ℕ × ℕ := (now + 250 * millis, now + 500 * millis)

def IpAddr.isUnspecified : IpAddr → Bool
  | v4 a b c d => a == 0 && b == 0 && c == 0 && d == 0
  | v6 octets => octets.all (· == 0)

/-- Host and mapped candidates; an unspecified host becomes the loopback address. -/
def natCandidates (localAddr : SocketAddr) (mapped : Option SocketAddr) : List SocketAddr :=
  let host :=
    if localAddr.ip.isUnspecified then SocketAddr.ofV4 127 0 0 1 localAddr.port else localAddr
  match mapped with
  | none => [host]
  | some m => if m ∈ [host] then [host] else [host, m]

structure PunchAttempt where
  peer : NodeId
  candidates : List SocketAddr
  rendezvous : SocketAddr
  burstsDone : UInt8
  nextBurst : ℕ
  relayAt : ℕ
  replied : Bool
deriving DecidableEq

/-! ## Timers -/

inductive TimerKind where
  | keepalive
  | peerstoreFlush
  | gc
  | lookupTick
  | punch
deriving DecidableEq

/-- The derived order of the kinds. -/
def TimerKind.rank : TimerKind → ℕ
  | keepalive => 0
  | peerstoreFlush => 1
  | gc => 2
  | lookupTick => 3
  | punch => 4

structure Timer where
  due : ℕ
  kind : TimerKind
deriving DecidableEq

/-- The order in which the heap pops: earlier first, at one instant the larger kind first. -/
def Timer.before (a b : Timer) : Prop := a.due < b.due ∨ (a.due = b.due ∧ b.kind.rank ≤ a.kind.rank)

instance : DecidableRel Timer.before := fun _ _ ↦ inferInstanceAs (Decidable (_ ∨ _))

/-- The heap of pending timers, as a list. -/
structure TimingWheel where
  heap : List Timer
deriving DecidableEq

namespace TimingWheel

def new : TimingWheel := { heap := [] }

def schedule (w : TimingWheel) (due : ℕ) (kind : TimerKind) : TimingWheel :=
  { heap := ⟨due, kind⟩ :: w.heap }

/-- All timers that are due, in the order of the heap. -/
def popDue (w : TimingWheel) (now : ℕ) : List TimerKind × TimingWheel :=
  (((w.heap.filter fun t ↦ t.due ≤ now).insertionSort Timer.before).map Timer.kind,
    { heap := w.heap.filter fun t ↦ now < t.due })

end TimingWheel

end Molia
