/-
# Random sources

A source yields numbers between zero and one, one after the other. It either
runs through a given list again and again, or steps a linear congruential
generator of 64 bits and takes the upper 53 of them. A source can spawn
children; the seed of the k-th child depends on the seed of its parent and on k
alone, so what a child yields does not depend on how far its parent has come.

A number between two others is picked by a number between zero and one. A guarded
source refuses a range that is not finite or that runs backwards, and yields nothing
for it.

Key definitions: `Source`, `Source.draw`, `Source.spawn`, `Source.nth`,
`Source.refusal?`, `uniform`.
-/
import DensityAlgebra.Fault

namespace DensityAlgebra

/-- A random source, with how many numbers it has yielded and how many children
it has spawned. Without a script it is a generator; if it is guarded, it looks at the
range from which a number is to be picked. -/
structure Source (α : Type) where
  seed : UInt64
  script : List α
  state : UInt64
  drawn : Nat
  spawned : Nat
  guarded : Bool
  deriving Repr

/-- The number between `lo` and `hi` that a number between zero and one picks. -/
def uniform {α : Type} [Scalar α] (lo hi u : α) : α := lo + (hi - lo) * u

namespace Source

variable {α : Type} [Scalar α]

/-- A source at its start that takes every range. -/
def ofSeed (seed : UInt64) (script : List α) : Source α := ⟨seed, script, seed, 0, 0, false⟩

/-- The state of the generator after one step. -/
def advance (state : UInt64) : UInt64 := state * 6364136223846793005 + 1442695040888963407

/-- The number between zero and one that a state stands for. -/
def unit (state : UInt64) : α :=
  Scalar.ofNat (state >>> 11).toNat / Scalar.ofNat (Nat.pow 2 53)

/-- The next number, and the source after it. -/
def draw (s : Source α) : α × Source α :=
  let state := advance s.state
  let u :=
    match s.script[s.drawn % s.script.length]? with
    | some u => u
    | none => unit state
  (u, { s with state := state, drawn := s.drawn + 1 })

/-- The next child, and the source after it. -/
def spawn (s : Source α) : Source α × Source α :=
  let k := s.spawned + 1
  let child := ofSeed (s.seed + UInt64.ofNat k * 0x9E3779B97F4A7C15) s.script
  ({ child with guarded := s.guarded }, { s with spawned := k })

/-- Why the source refuses to pick a number from a range, if it does. -/
def refusal? (s : Source α) (lo hi : α) : Option (Fault α) :=
  if !s.guarded then none
  else if !Scalar.isFinite (hi - lo) then some .overflow
  else if Scalar.lt (hi - lo) 0.0 then some .reversedRange
  else none

/-- The source after `n` numbers. -/
def skip (s : Source α) : Nat → Source α
  | 0 => s
  | n + 1 => (s.skip n).draw.2

/-- The `n`-th number from here on. -/
def nth (s : Source α) (n : Nat) : α := (s.skip n).draw.1

end Source

end DensityAlgebra
