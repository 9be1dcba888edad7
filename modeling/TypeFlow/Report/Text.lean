import TypeFlow.Report.Basic
import TypeFlow.Report.Decimal

/-!
# Reports for people

The text form of a report, with terminal colours if they are wanted.
-/

namespace TypeFlow

inductive Style where
  | bold
  | green
  | yellow
  | red
  | boldRed
  deriving DecidableEq, Repr

/-- The parameters of the terminal sequence that turns a style on. -/
def Style.code : Style → String
  | bold => "1"
  | green => "32"
  | yellow => "33"
  | red => "31"
  | boldRed => "1;31"

def Style.apply (style : Style) (colours : Bool) (text : String) : String :=
  if colours then "\x1b[" ++ style.code ++ "m" ++ text ++ "\x1b[0m" else text

def Precision.title : Precision → String
  | fast => "Fast"
  | precise => "Precise"

namespace Report

/-- The lines of a report. The methods are listed only in the verbose form; a
star marks those without a body. -/
def lines (r : Report) (verbose colours : Bool) : List String :=
  let bold := Style.bold.apply colours
  [ bold "Reachability" ++ " (generation " ++ toString r.generation ++ ", " ++ r.precision.title ++ " mode)",
    "  classes:  " ++ toString r.classes.length,
    "  methods:  " ++ toString r.methods.length ++ " (" ++ toString r.methodsWithBody ++ " with body)",
    "  fields:   " ++ toString r.fields.length,
    bold "Call sites",
    "  monomorphic:  " ++ Style.green.apply colours (toString r.calls.monomorphic),
    "  polymorphic:  " ++ Style.yellow.apply colours (toString r.calls.polymorphic),
    "  megamorphic:  " ++ Style.red.apply colours (toString r.calls.megamorphic),
    "  unreachable:  " ++ toString r.calls.unreachable,
    "  devirtualized " ++ toString r.devirtualization.devirtualized ++ " of "
      ++ toString r.devirtualization.examined ++ " (" ++ fixedText 1 r.calls.monomorphicPercentage
      ++ "% of reached sites monomorphic)" ]
  ++ (if verbose then
      bold "Methods" :: r.methods.map fun m => "  " ++ (if m.hasBody then " " else "*") ++ " " ++ m.reference
    else [])
  ++ (if r.problems.isEmpty then []
    else Style.boldRed.apply colours "Problems" :: r.problems.map fun p =>
      "  " ++ Style.yellow.apply colours "warning:" ++ " " ++ p.text)

def render (r : Report) (verbose colours : Bool) : String :=
  String.join ((r.lines verbose colours).map fun line => line ++ "\n")

end Report

end TypeFlow
