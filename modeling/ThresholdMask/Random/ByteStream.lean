import ThresholdMask.Bytes
import ThresholdMask.Random

/-!
# A reproducible byte stream

A stream of bytes: first those of a given beginning, then the outputs of the SplitMix64 generator,
eight bytes each, least significant first. `ByteStream.sampler` draws numbers from it by rejection:
as many 32-bit words as the bound has, the last word shifted right to the bound's bit length, and
again while the result is not below the bound.

The number of retries is bounded so that drawing ends on every stream; a draw that is still too
large after all of them is reduced.
-/

namespace ThresholdMask

/-- The state of a byte stream. -/
structure ByteStream where
  /-- Bytes that come before the generator's next output. -/
  pending : Bytes
  /-- The generator's state. -/
  seed : UInt64
  /-- Bytes taken so far. -/
  used : Nat := 0
  deriving Repr

namespace ByteStream

/-- One step of SplitMix64: its output and its next state. -/
def splitMix64 (seed : UInt64) : UInt64 × UInt64 :=
  let state := seed + 0x9e3779b97f4a7c15
  let z := (state ^^^ (state >>> 30)) * 0xbf58476d1ce4e5b9
  let z := (z ^^^ (z >>> 27)) * 0x94d049bb133111eb
  (z ^^^ (z >>> 31), state)

/-- Append generator outputs until at least `n` bytes are pending; `rounds` bounds the outputs. -/
def refill (n : Nat) : Nat → ByteStream → ByteStream
  | 0, s => s
  | rounds + 1, s =>
    if n ≤ s.pending.length then s
    else
      let (output, state) := splitMix64 s.seed
      refill n rounds { s with pending := s.pending ++ Bytes.ofNatLE 8 output.toNat, seed := state }

/-- Take the next `n` bytes. -/
def take (n : Nat) (s : ByteStream) : Bytes × ByteStream :=
  let s := refill n n s
  (s.pending.take n, { s with pending := s.pending.drop n, used := s.used + n })

/-- One attempt at a number of the bit length of `m`. -/
def attempt (m : Nat) (s : ByteStream) : Nat × ByteStream :=
  let words := (bitLength m + 31) / 32
  let (bytes, s) := s.take (4 * words)
  let low := Bytes.toNatLE (bytes.take (4 * (words - 1)))
  let top := Bytes.toNatLE (bytes.drop (4 * (words - 1)))
  let shift := (32 - bitLength m % 32) % 32
  (low + (top >>> shift) <<< (32 * (words - 1)), s)

/-- Attempt until the number is below `m`, at most `retries` times more than once. -/
def draw (m : Nat) : Nat → ByteStream → Nat × ByteStream
  | 0, s => ((s.attempt m).1 % m, (s.attempt m).2)
  | retries + 1, s =>
    let result := s.attempt m
    if result.1 < m then result else draw m retries result.2

theorem draw_lt (m retries : Nat) (s : ByteStream) (h : 0 < m) : (draw m retries s).1 < m := by
  induction retries generalizing s with
  | zero => exact Nat.mod_lt _ h
  | succ retries ih =>
    simp only [draw]
    split
    · assumption
    · exact ih _

/-- The bound on retries. Each attempt at random bytes succeeds with probability at least one
half. -/
def maxRetries : Nat := UInt32.size

/-- Draw numbers from a byte stream. -/
def sampler : Sampler ByteStream where
  below m s := draw m maxRetries s
  below_lt m s h := draw_lt m maxRetries s h

end ByteStream
end ThresholdMask
