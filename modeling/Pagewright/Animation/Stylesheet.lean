import Pagewright.Animation.Bucket
import Pagewright.Text.Lines
import Pagewright.Text.Replace

/-! Animations as stylesheet rules: a keyframes rule and a rule that applies it to the element. -/

namespace Pagewright

/-- The name by which generated code knows an element. -/
def elementName (elementId : String) : String := "element-" ++ elementId

namespace Animation

/-- The name of the keyframes rule: the id with underscores for hyphens. -/
def keyframesName (a : Animation) : String :=
  replaceChars (fun c => if c = '-' then "_" else c.toString) a.id

def bucketText (percent : Int) (d : Declarations) : String :=
  "  " ++ toString percent ++ "% \x7b\n" ++
    String.join (d.entries.map fun (property, value) =>
      "    " ++ property ++ ": " ++ value ++ ";\n") ++
    "  \x7d\n"

def keyframesRule (a : Animation) : String :=
  "@keyframes " ++ a.keyframesName ++ " \x7b\n" ++
    String.join (a.buckets.map fun (percent, d) => bucketText percent d) ++ "\x7d\n"

/-- The easing of the first track, unless it is empty. -/
def leadEasing (a : Animation) : String :=
  match a.tracks with
  | [] => "ease"
  | t :: _ => if t.easing = "" then "ease" else t.easing

/-- The declarations that apply the keyframes rule, one on each line. -/
def timingDeclarations (a : Animation) : String :=
  "animation-name: " ++ a.keyframesName ++ ";\n" ++
    "animation-duration: " ++ a.duration.plainText ++ "ms;\n" ++
    "animation-delay: " ++ a.delay.plainText ++ "ms;\n" ++
    "animation-timing-function: " ++ a.leadEasing ++ ";\n" ++
    "animation-fill-mode: forwards;\n"

def stylesheet (a : Animation) : String :=
  a.keyframesRule ++ "\n." ++ elementName a.elementId ++ " \x7b\n" ++
    String.join ((linesOf a.timingDeclarations).map fun line => "  " ++ line ++ "\n") ++ "\x7d\n"

end Animation

end Pagewright
