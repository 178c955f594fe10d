/-
# Drawing events

Events are drawn from a decay density by accept and reject: m12 and m13 are
uniform on their kinematic ranges, a candidate outside the Dalitz region is
dropped at once, and any other is kept with probability density over envelope. A
candidate takes two numbers from the source, and a third one if it lies in the
region. A source that refuses a range stops the drawing.

Key definitions: `Decay.nextCandidate`, `Decay.search`, `Decay.generate`,
`Decay.sample`.
-/
import DensityAlgebra.Decay

namespace DensityAlgebra

namespace Decay

variable {α : Type} [Scalar α]

/-- The next candidate of a source. -/
def nextCandidate (p : PhaseSpace α) (source : SourceId) : Run α (α × α × α) := do
  let m12 ← Run.pick source (p.sqMin .of12) (p.sqMax .of12)
  let m13 ← Run.pick source (p.sqMin .of13) (p.sqMax .of13)
  return (m12, m13, p.third m12 m13)

/-- The first candidate that is accepted, among at most as many as are left. -/
def search (d : Decay α) (envelope : α) (source : SourceId) :
    Nat → Run α (Option (α × α × α))
  | 0 => pure none
  | left + 1 => do
    let (a, b, c) ← nextCandidate d.space source
    if !d.space.contains Scalar.square a b c then search d envelope source left
    else
      let density ← Run.reading fun s => do
        (← d.evaluateAt s (.scalar a) (.scalar b) (some (.scalar c))).single?
      if Scalar.lt envelope density then
        Run.note (.envelopeExceeded d.head.name density a b c envelope)
      if Scalar.lt (← Run.pick source 0.0 envelope) density then pure (some (a, b, c))
      else search d envelope source left

/-- One event; the point of all zeros, with a notice, if no candidate is
accepted, which is a failure in strict mode. -/
def generate (d : Decay α) (source : SourceId) (strict : Bool) : Run α (α × α × α) := do
  let state := (← get).state d.state
  match ← d.search state.envelope source state.maxAttempts.toNat with
  | some event => return event
  | none =>
    if strict then throw (.exhausted d.head.name state.maxAttempts)
    Run.note (.nothingAccepted d.head.name state.maxAttempts)
    return (0.0, 0.0, 0.0)

/-- So many events, one after the other. -/
def sample (d : Decay α) (source : SourceId) (strict : Bool) : Nat → Run α (List (α × α × α))
  | 0 => pure []
  | n + 1 => do
    let event ← d.generate source strict
    return event :: (← d.sample source strict n)

/-- What is known by role, known by name. -/
def byName {β : Type} (d : Decay α) (a b c : β) : List (String × β) :=
  [(d.role12, a), (d.role13, b), (d.role23, c)]

/-- Events as columns by name. -/
def columns (d : Decay α) (events : List (α × α × α)) : List (String × List α) :=
  d.byName (events.map (·.1)) (events.map (·.2.1)) (events.map (·.2.2))

end Decay

end DensityAlgebra
