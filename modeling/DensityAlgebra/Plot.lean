/-
# Plots

A plot is a list of drawing calls, in the order in which they are made on a pair
of axes. The projection of a density is drawn as a curve; with data, these come
first as a histogram with error bars, and the curve is scaled to the number of
events per bin. Events of a decay are drawn as points over two of their
variables. Settings given by the caller win over the usual ones; those that are no
settings, since the plot itself provides them, are refused.

Key definitions: `Drawing`, `Projector`, `Plot.projection`, `Plot.dalitz`.
-/
import DensityAlgebra.Histogram
import DensityAlgebra.Decay
import DensityAlgebra.Formula

namespace DensityAlgebra

/-- Settings by name. -/
abbrev Style (α : Type) := List (String × Datum α)

/-- Whether there is a setting of a name. -/
def Style.has {α : Type} (style : Style α) (name : String) : Bool := style.any (·.1 = name)

/-- The settings with usual ones added where they are not given. -/
def Style.withDefaults {α : Type} (given usual : Style α) : Style α :=
  given ++ usual.filter fun e => !given.has e.1

/-- A drawing call. -/
inductive Drawing (α : Type) where
  | errorBars (x : List α) (counts : List Nat) (errors : List α) (style : Style α)
  | curve (x y : List α) (style : Style α)
  | points (x y : Value α) (style : Style α)
  | xLabel (text : String)
  | yLabel (text : String)

/-- How many lines a call adds to the axes. Error bars have a line through the data
unless their format is `none`, and two lines of caps if these have a size. -/
def Drawing.lines {α : Type} [Scalar α] : Drawing α → Nat
  | errorBars _ _ _ style =>
    let hidden : Bool := match style.lookup "fmt" with
      | some (.text s) => String.ofList (s.toList.map Char.toLower) == "none"
      | _ => false
    let capped : Bool := match (style.lookup "capsize").bind Datum.number? with
      | some x => Scalar.lt 0.0 x
      | none => false
    (if hidden then 0 else 1) + (if capped then 2 else 0)
  | curve .. => 1
  | _ => 0

/-- Whether a call adds a collection of marks to the axes. -/
def Drawing.isCollection {α : Type} : Drawing α → Bool
  | errorBars .. | points .. => true
  | _ => false

/-- Something that has a projection on a variable, and perhaps bounds for it. -/
structure Projector (α : Type) where
  project : Value α → Except (Fault α) (Value α)
  bounds : Option (Except (Fault α) (α × α))

namespace Projector

variable {α : Type} [Scalar α]

/-- A decay density projected on a variable. -/
def ofDecay (s : Store α) (d : Decay α) (name : String) : Projector α :=
  ⟨d.project s name, some (d.bounds name)⟩

/-- A formula in `x`. -/
def ofFormula (body : Formula α) (bounds : Option (α × α)) : Projector α :=
  ⟨fun v => body.evaluate fun name => if name = "x" then .ok v else .error .missingKey,
    bounds.map .ok⟩

end Projector

namespace Plot

variable {α : Type} [Scalar α]

/-- The values of events of one variable: a column, or a column under the name of
the variable. -/
def eventValues (name : String) (data : Input α) : Except (Fault α) (List α) :=
  match data with
  | .mapping entries =>
    match entries.lookup name with
    | some e => do
      match ← e.toGiven.read with
      | .column xs => return xs
      | .scalar _ => throw .notOneDimensional
    | none => .error .missingKey
  | .row gs => do
    let vs ← gs.mapM Given.read
    let lengths := vs.map fun
      | .scalar _ => none
      | .column xs => some xs.length
    match lengths with
    | [] => return []
    | first :: rest =>
      if rest.any (· ≠ first) then throw .shapeMismatch
      else if first.isSome then throw .notOneDimensional
      else return vs.flatMap (·.entries)
  | .text s =>
    .error (if (Text.real? s : Option α).isSome then .notOneDimensional else .unreadableNumber)
  | .single g => do
    let _ ← g.read
    throw .notOneDimensional
  | .result _ | .nothing => .error .notANumber

/-- The range of a plot that is not given one. -/
def defaultRange (p : Projector α) (values : Option (List α)) : Except (Fault α) (α × α) :=
  match values with
  | some (x :: rest) => .ok (rest.foldl Scalar.min x, rest.foldl Scalar.max x)
  | _ =>
    match p.bounds with
    | some bounds => bounds
    | none => .error .rangeNeeded

/-- What a plot of a projection is asked for. The numbers of bins and of points are
looked at where they are needed. -/
structure ProjectionOptions (α : Type) where
  name : String
  data : Input α
  bins : Except (Fault α) Int
  range : Option (List α)
  points : Except (Fault α) Int
  dataStyle : Style α
  lineStyle : Style α

/-- The calls that draw a projection, with its data if there are any. -/
def projection (p : Projector α) (o : ProjectionOptions α) :
    Except (Fault α) (List (Drawing α)) := do
  let values ← match o.data with
    | .nothing => pure none
    | data => some <$> eventValues o.name data
  let (lo, hi) ← match o.range with
    | some (lo :: hi :: _) => pure (lo, hi)
    | some _ => throw .missingItem
    | none => defaultRange p values
  let n ← o.points
  if n < 0 || Grid.tooMany ≤ n then throw .badGrid
  let xs := Grid.points lo hi n.toNat
  let ys ← (← p.project (.column xs)).repeatTo xs.length
  let style := o.lineStyle.withDefaults [("label", .text "projection")]
  match values with
  | none => return [.yLabel "density", .curve xs ys style, .xLabel o.name]
  | some values =>
    let h ← Histogram.ofValues values lo hi (← o.bins)
    if o.dataStyle.has "yerr" then throw .givenTwice
    let bars := o.dataStyle.withDefaults
      [("fmt", .text "o"), ("ms", .whole 3), ("capsize", .whole 0), ("label", .text "data")]
    let errors := h.counts.map fun n => Scalar.sqrt (Scalar.ofNat n)
    let scaled := ys.map fun y => y * Scalar.ofNat values.length * h.width
    return [.errorBars h.centers h.counts errors bars, .yLabel "events / bin",
      .curve xs scaled style, .xLabel o.name]

/-- The values of events under a name. -/
def eventColumn (events : Input α) (name : String) : Except (Fault α) (Value α) :=
  match events with
  | .mapping entries =>
    match entries.lookup name with
    | some e => e.toGiven.read
    | none => .error .missingKey
  | .result r => if r.names.contains name then .error .notANumber else .error .missingKey
  | _ => .error .notANumber

/-- Whether two values have the same shape. -/
def sameShape : Value α → Value α → Bool
  | .scalar _, .scalar _ => true
  | .column xs, .column ys => xs.length = ys.length
  | _, _ => false

/-- The calls that draw events over two of their variables. -/
def dalitz (events : Input α) (x y : String) (style : Style α) :
    Except (Fault α) (List (Drawing α)) := do
  if ["events", "x_name", "y_name", "ax"].any style.has then throw .givenTwice
  let xs ← eventColumn events x
  let ys ← eventColumn events y
  if !sameShape xs ys then throw .differentShapes
  return [.points xs ys (style.withDefaults [("s", .whole 2), ("alpha", .real 0.5)]),
    .xLabel x, .yLabel y]

end Plot

end DensityAlgebra
