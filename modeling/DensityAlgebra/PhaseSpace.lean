/-
# Phase space of a three-body decay

A mother of mass `M` decays into daughters 1, 2 and 3. The kinematic variables
are the squared masses of the daughter pairs (12), (13) and (23); their sum is
fixed by the masses. The physical region, the Dalitz region, is described by the
range of m23 at given m12, from the energies and momenta of particles 2 and 3 in
the rest frame of the pair (12). A point that stands alone and a point of a column
have their squares rounded in ways of their own, which are the same in exact
arithmetic.

Masses that are no numbers are not refused, since each check only refuses what
it can compare.

Key definitions: `Pair`, `PhaseSpace`, `PhaseSpace.accept`, `PhaseSpace.ofMasses`,
`PhaseSpace.sqMin`, `PhaseSpace.sqMax`, `PhaseSpace.limits?`,
`PhaseSpace.limitsAt`, `PhaseSpace.contains`, `PhaseSpace.containsAt`.
-/
import DensityAlgebra.Value

namespace DensityAlgebra

/-- A pair of daughters, and the kinematic variable that belongs to it. -/
inductive Pair where
  | of12 | of13 | of23
  deriving Repr, DecidableEq

namespace Pair

def all : List Pair := [of12, of13, of23]

/-- The pair of a position among the three, which is a number of any kind. -/
def ofIndex? {α : Type} [Scalar α] (i : α) : Option Pair :=
  if Scalar.eq i 0.0 then some of12
  else if Scalar.eq i 1.0 then some of13
  else if Scalar.eq i 2.0 then some of23
  else none

/-- The pair after this one, in a circle. -/
def next : Pair → Pair
  | of12 => of13
  | of13 => of23
  | of23 => of12

/-- What a triple of things holds for a pair. -/
def select {β : Type} : Pair → β → β → β → β
  | of12, a, _, _ => a
  | of13, _, b, _ => b
  | of23, _, _, c => c

end Pair

/-- The masses of a mother and of its three daughters. -/
structure PhaseSpace (α : Type) where
  mother : α
  m1 : α
  m2 : α
  m3 : α
  deriving Repr

namespace PhaseSpace

variable {α : Type} [Scalar α]

/-- The squared mass of the mother. -/
def sqMother (p : PhaseSpace α) : α := Scalar.square p.mother

/-- The sum of the three kinematic variables. -/
def sqSum (p : PhaseSpace α) : α :=
  Scalar.square p.mother + Scalar.square p.m1 + Scalar.square p.m2 + Scalar.square p.m3

/-- The mass of the pair at rest. -/
def pairMass (p : PhaseSpace α) : Pair → α
  | .of12 => p.m1 + p.m2
  | .of13 => p.m1 + p.m3
  | .of23 => p.m2 + p.m3

/-- The mass that is left to the pair when the third daughter is at rest. -/
def remainingMass (p : PhaseSpace α) : Pair → α
  | .of12 => p.mother - p.m3
  | .of13 => p.mother - p.m2
  | .of23 => p.mother - p.m1

/-- The least squared mass of a pair. -/
def sqMin (p : PhaseSpace α) (i : Pair) : α := Scalar.square (p.pairMass i)

/-- The largest squared mass of a pair. -/
def sqMax (p : PhaseSpace α) (i : Pair) : α := Scalar.square (p.remainingMass i)

/-- Whether all the squares that belong to the masses are finite where the masses
are. -/
def hasSquares (p : PhaseSpace α) : Bool :=
  ([p.mother, p.m1, p.m2, p.m3] ++ Pair.all.map p.pairMass ++ Pair.all.map p.remainingMass).all
    fun m => (Scalar.square? m).isSome

/-- The phase space of a decay that is kinematically allowed. -/
def accept (mother m1 m2 m3 : α) : Except (Fault α) (PhaseSpace α) :=
  let daughters := 0.0 + m1 + m2 + m3
  if [m1, m2, m3].any (Scalar.lt · 0.0) then .error .negativeDaughter
  else if Scalar.le mother 0.0 then .error .nonpositiveMother
  else if Scalar.le mother daughters then .error (.forbiddenDecay daughters mother)
  else .ok ⟨mother, m1, m2, m3⟩

/-- The phase space of accepted masses that can be squared. -/
def ofMasses (mother m1 m2 m3 : α) : Except (Fault α) (PhaseSpace α) := do
  let p ← accept mother m1 m2 m3
  if p.hasSquares then .ok p else .error .overflow

/-- Whether m12 lies between its least and its largest value. -/
def admits (p : PhaseSpace α) (m12 : α) : Bool :=
  Scalar.le (p.sqMin .of12) m12 && Scalar.le m12 (p.sqMax .of12) && Scalar.lt 0.0 m12

/-- The range of m23 at an admitted m12, where `sq` squares what depends on m12. -/
def limits (p : PhaseSpace α) (sq : α → α) (m12 : α) : α × α :=
  let mass := Scalar.sqrt m12
  let e2 := (m12 - Scalar.square p.m1 + Scalar.square p.m2) / (2.0 * mass)
  let e3 := (p.sqMother - m12 - Scalar.square p.m3) / (2.0 * mass)
  let p2 := Scalar.sqrt (Scalar.max (sq e2 - Scalar.square p.m2) 0.0)
  let p3 := Scalar.sqrt (Scalar.max (sq e3 - Scalar.square p.m3) 0.0)
  (sq (e2 + e3) - sq (p2 + p3), sq (e2 + e3) - sq (p2 - p3))

/-- The range of m23 at m12, if m12 is admitted. -/
def limits? (p : PhaseSpace α) (sq : α → α) (m12 : α) : Option (α × α) :=
  if p.admits m12 then some (p.limits sq m12) else none

/-- The ranges of m23 at given m12, undefined where m12 is not admitted. -/
def limitsAt (p : PhaseSpace α) (m12 : Value α) : Value (α × α) :=
  let range (sq : α → α) (x : α) := (p.limits? sq x).getD (Scalar.undefined, Scalar.undefined)
  match m12 with
  | .scalar x => .scalar (range Scalar.square x)
  | .column xs => .column (xs.map (range Scalar.selfProduct))

/-- Whether a point lies in the Dalitz region; its sum may be off by one part in
10^9. -/
def contains (p : PhaseSpace α) (sq : α → α) (m12 m13 m23 : α) : Bool :=
  match p.limits? sq m12 with
  | none => false
  | some (lo, hi) =>
    Scalar.le (Scalar.abs (m12 + m13 + m23 - p.sqSum)) (1e-9 * p.sqSum)
      && Scalar.le lo m23 && Scalar.le m23 hi

/-- Whether points lie in the Dalitz region. -/
def containsAt (p : PhaseSpace α) : Value α → Value α → Value α → Except (Fault α) (Value Bool)
  | .scalar a, .scalar b, .scalar c => .ok (.scalar (p.contains Scalar.square a b c))
  | a, b, c => Value.combine₃ (p.contains Scalar.selfProduct) a b c

/-- What is left for m23 at given m12 and m13. -/
def third (p : PhaseSpace α) (m12 m13 : α) : α := p.sqSum - m12 - m13

end PhaseSpace

end DensityAlgebra
