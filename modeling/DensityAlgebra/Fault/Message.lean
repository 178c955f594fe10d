/-
# The wording of failures

The message of each cause that explains itself. Names stand quoted where they
are singled out, and as a bracketed list where there may be several.

Key definitions: `Leaf.describe`, `Datum.describe`, `Fault.message?`.
-/
import DensityAlgebra.Fault
import DensityAlgebra.Text.Shortest
import DensityAlgebra.Text.Quoted

namespace DensityAlgebra

/-- An operation as messages show it. -/
def Operation.describe (op : Operation) : String :=
  "<Operation." ++ op.label ++ ": " ++ Text.quoted op.symbol ++ ">"

/-- A leaf as messages show it. -/
def Leaf.describe : Leaf Float → String
  | .model i => s!"ModelLeaf(index={i})"
  | .parameter name => "ParameterLeaf(name=" ++ Text.quoted name ++ ")"
  | .constant x => "ConstantLeaf(value=" ++ Text.shortest x ++ ")"

/-- A truth value as messages and descriptions show it. -/
def Text.flag (b : Bool) : String := if b then "True" else "False"

/-- A part of a complex number, which has no fraction if it is an integer. -/
def ComplexNumber.describePart (x : Float) : String :=
  let cs := (Text.shortest x).toList
  String.ofList (if cs.drop (cs.length - 2) = ['.', '0'] then cs.dropLast.dropLast else cs)

/-- A complex number as messages show it; a real part of zero is left out. -/
def ComplexNumber.describe (z : ComplexNumber Float) : String :=
  let re := describePart z.re
  let im := describePart z.im
  if re = "0" then im ++ "j"
  else "(" ++ re ++ (if im.startsWith "-" then "" else "+") ++ im ++ "j)"

mutual

/-- A plain datum as messages show it. -/
def Datum.describe : Datum Float → String
  | .nothing => "None"
  | .flag b => Text.flag b
  | .whole n => toString n
  | .real x => Text.shortest x
  | .complex z => z.describe
  | .text s => Text.quoted s
  | .list items => "[" ++ String.intercalate ", " items.describe ++ "]"
  | .mapping fields => "\x7b" ++ String.intercalate ", " fields.describe ++ "\x7d"

def Datum.Items.describe : Datum.Items Float → List String
  | .nil => []
  | .cons x rest => x.describe :: rest.describe

def Datum.Fields.describe : Datum.Fields Float → List String
  | .nil => []
  | .cons name x rest => (Text.quoted name ++ ": " ++ x.describe) :: rest.describe

end

/-- The message of a failure, for the causes that have one. -/
def Fault.message? : Fault Float → Option String
  | missingKey | missingItem | shapeMismatch | unreadableNumber | notANumber | notIterable
  | unsupportedOperands | overflow | divisionByZero | negativeDeviation | unknownRole
  | badGrid | reversedRange | givenTwice | badSignature => none
  | duplicateName kind name => some ("Duplicate " ++ kind ++ " name " ++ Text.quoted name ++ ".")
  | notAssignable kind => some ("Expected a sequence or mapping of " ++ kind ++ " values.")
  | wrongCount given kind names =>
    some (s!"Got {given} " ++ kind ++ s!" value(s) but the model has {names.length}: "
      ++ Text.nameList names ++ ".")
  | unexistingNames kind names =>
    some ("Cannot set unexisting " ++ kind ++ "(s): " ++ String.intercalate ", " names ++ ".")
  | unexistingName kind name =>
    some ("Cannot set unexisting " ++ kind.word ++ " " ++ Text.quoted name ++ ".")
  | missingValues names => some ("Missing values for variables: " ++ Text.nameList names ++ ".")
  | takesValues owner names given =>
    some (owner ++ s!" takes {names.length} variable value(s) " ++ Text.nameList names
      ++ s!", got {given}.")
  | unknownBinary op => some ("Unknown binary operation " ++ op.describe ++ ".")
  | unknownUnary op => some ("Unknown unary operation " ++ op.describe ++ ".")
  | unknownNode node => some ("Unknown program node " ++ node.describe ++ ".")
  | notUnary op => some (op.describe ++ " is not a unary operation.")
  | foreignLeaf leaf => some ("Parameter expressions cannot hold " ++ leaf.describe ++ ".")
  | binaryUnderflow => some "Not enough values in the stack for a binary operation."
  | unaryUnderflow => some "Not enough values in the stack for a unary operation."
  | leftover count => some s!"Program left {count} values in the stack instead of one."
  | cannotLift operand => some ("Cannot use " ++ operand ++ " in a parameter expression.")
  | cannotAppend operand => some ("Cannot append " ++ operand ++ " to a Pdf.")
  | cannotAdd operand => some ("Cannot add " ++ operand ++ " to a Pdf.")
  | cannotMultiply operand => some ("Cannot multiply a Pdf by " ++ operand ++ ".")
  | cannotScale operand => some ("Cannot scale a Pdf by " ++ operand ++ ".")
  | cannotDivide operand => some ("Cannot divide a Pdf by " ++ operand ++ ".")
  | incompatibleVariables left right =>
    some ("Cannot add two pdfs that do not depend on the same variables: "
      ++ Text.nameList left ++ " vs " ++ Text.nameList right ++ ".")
  | overlappingVariables common =>
    some ("Cannot multiply two pdfs that depend on some common variable: "
      ++ Text.nameList common ++ ".")
  | foreignVariables density weight names =>
    some ("Cannot multiply " ++ density ++ " by function " ++ Text.quoted weight
      ++ ": it depends on variables " ++ Text.nameList names ++ " the density does not declare.")
  | argumentMismatch name unbound unknown =>
    some ("Function " ++ Text.quoted name ++ " arguments do not match its variables and parameters "
      ++ "(unbound arguments: " ++ Text.nameList unbound ++ ", unknown names: "
      ++ Text.nameList unknown ++ ").")
  | variableAndParameter => some "A name cannot be both a variable and a parameter."
  | openEndedArguments => some "*args/**kwargs are not supported in functions of variables."
  | positionalOnlyArguments => some "Positional-only arguments cannot be bound by name."
  | emptyInterval lo hi =>
    some ("Uniform requires lo < hi, got (" ++ Text.shortest lo ++ ", " ++ Text.shortest hi ++ ").")
  | emptyGrid => some "nbins must be a positive integer."
  | badResolution => some "resolution must be a positive integer."
  | badEnvelope => some "envelope must be positive."
  | unknownChannel channel =>
    some ("channel must be one of ('12', '13', '23'), got " ++ Text.quoted channel ++ ".")
  | twoCells name =>
    some ("Parameter name " ++ Text.quoted name ++ " is used by two different cells.")
  | negativeDaughter => some "All daughter masses must be non-negative."
  | nonpositiveMother => some "Mother mass must be positive."
  | forbiddenDecay daughters mother =>
    some ("Kinematically forbidden: sum of daughter masses " ++ Text.general 6 daughters
      ++ " >= mother mass " ++ Text.general 6 mother ++ ".")
  | exhausted name attempts => some (name ++ s!": no event accepted after {attempts} attempts.")
  | unknownFixed names => some ("Cannot fix unknown parameters: " ++ Text.nameList names)
  | unknownBounded names =>
    some ("Bounds given for unknown or fixed parameters: " ++ Text.nameList names)
  | nothingToFit => some "The density has no free parameters to fit."
  | notProjectable density => some (density ++ " does not provide project().")
  | notOneDimensional => some "plot_projection requires 1D event values."
  | rangeNeeded => some "Pass range=(lo, hi) for densities without bounds()."
  | differentShapes => some "plot_dalitz requires x and y to have the same shape."

end DensityAlgebra
