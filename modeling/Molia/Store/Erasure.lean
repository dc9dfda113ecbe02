import Molia.Core.Crates

/-!
# Erasure coding

Values of one mebibyte and more are split into ten data shards of equal length, the last ones padded
with zeros, and four parity shards are computed over them. What is left of the fourteen is restored
and put together again; the length of the value is kept elsewhere.
-/

namespace Molia.Erasure

variable [Crates]

open Crates

def dataShards : ℕ := 10
def parityShards : ℕ := 4
def threshold : ℕ := 1024 * 1024

def shouldErasure (len : ℕ) : Bool := decide (len ≥ threshold)

/-- The length of a shard, rounded up. -/
def shardLen (data : Bytes) : ℕ := (data.length + dataShards - 1) / dataShards

/-- Data shard `i`, padded with zeros. -/
def dataShard (data : Bytes) (i : ℕ) : Bytes :=
  let s := (data.drop (i * shardLen data)).take (shardLen data)
  s ++ List.replicate (shardLen data - s.length) 0

def encode (data : Bytes) : Option (List Bytes) :=
  let zeros := List.replicate parityShards (List.replicate (shardLen data) 0)
  rsEncode dataShards parityShards ((List.range dataShards).map (dataShard data) ++ zeros)

/-- The value of the given length, from the shards that are left; a lost shard is `none`. The
function of the coder that restores lost shards is a parameter. -/
def reconstruct (rsReconstruct : ℕ → ℕ → List (Option Bytes) → Option (List (Option Bytes)))
    (shards : List (Option Bytes)) (originalLen : ℕ) : Option Bytes :=
  match rsReconstruct dataShards parityShards shards with
  | none => none
  | some shards =>
    let out := (shards.take dataShards).foldl (fun out s ↦ out ++ s.getD []) []
    some (out.take originalLen)

end Molia.Erasure
