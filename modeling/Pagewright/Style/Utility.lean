import Pagewright.Dict
import Pagewright.Scalar
import Pagewright.Style.Scale

/-!
Style declarations as utility classes. A declaration without a class is dropped: a length beyond
its scale, a color that has no name, a number where only text has a meaning.
-/

namespace Pagewright

/-- Values with a class of their own, for one property. -/
abbrev ClassTable := List (String × String)

def displayClasses : ClassTable :=
  [("block", "block"), ("inline", "inline"), ("inline-block", "inline-block"), ("flex", "flex"),
   ("inline-flex", "inline-flex"), ("grid", "grid"), ("inline-grid", "inline-grid"),
   ("none", "hidden")]

def positionClasses : ClassTable :=
  [("static", "static"), ("relative", "relative"), ("absolute", "absolute"), ("fixed", "fixed"),
   ("sticky", "sticky")]

/-- The colors that have a name, by name and by hexadecimal code. -/
def colorNames : ClassTable :=
  [("black", "black"), ("white", "white"), ("transparent", "transparent"), ("red", "red-500"),
   ("blue", "blue-500"), ("green", "green-500"), ("yellow", "yellow-500"),
   ("purple", "purple-500"), ("pink", "pink-500"), ("gray", "gray-500"), ("#000", "black"),
   ("#000000", "black"), ("#fff", "white"), ("#ffffff", "white"), ("#f00", "red-500"),
   ("#0f0", "green-500"), ("#00f", "blue-500")]

def fontSizeClasses : ClassTable :=
  [("12px", "text-xs"), ("14px", "text-sm"), ("16px", "text-base"), ("18px", "text-lg"),
   ("20px", "text-xl"), ("24px", "text-2xl"), ("30px", "text-3xl"), ("36px", "text-4xl"),
   ("48px", "text-5xl"), ("60px", "text-6xl"), ("72px", "text-7xl"), ("96px", "text-8xl"),
   ("128px", "text-9xl")]

def fontWeightClasses : ClassTable :=
  [("100", "font-thin"), ("200", "font-extralight"), ("300", "font-light"),
   ("400", "font-normal"), ("500", "font-medium"), ("600", "font-semibold"),
   ("700", "font-bold"), ("800", "font-extrabold"), ("900", "font-black"),
   ("thin", "font-thin"), ("extralight", "font-extralight"), ("light", "font-light"),
   ("normal", "font-normal"), ("medium", "font-medium"), ("semibold", "font-semibold"),
   ("bold", "font-bold"), ("extrabold", "font-extrabold"), ("black", "font-black")]

def borderClasses : ClassTable :=
  [("none", "border-0"), ("1px solid black", "border border-black"), ("1px solid", "border"),
   ("2px solid", "border-2"), ("4px solid", "border-4"), ("8px solid", "border-8")]

def borderRadiusClasses : ClassTable :=
  [("0", "rounded-none"), ("0px", "rounded-none"), ("2px", "rounded-sm"), ("4px", "rounded"),
   ("6px", "rounded-md"), ("8px", "rounded-lg"), ("12px", "rounded-xl"),
   ("16px", "rounded-2xl"), ("24px", "rounded-3xl"), ("9999px", "rounded-full"),
   ("50%", "rounded-full")]

def flexDirectionClasses : ClassTable :=
  [("row", "flex-row"), ("column", "flex-col"), ("row-reverse", "flex-row-reverse"),
   ("column-reverse", "flex-col-reverse")]

def justifyContentClasses : ClassTable :=
  [("flex-start", "justify-start"), ("flex-end", "justify-end"), ("center", "justify-center"),
   ("space-between", "justify-between"), ("space-around", "justify-around"),
   ("space-evenly", "justify-evenly")]

def alignItemsClasses : ClassTable :=
  [("flex-start", "items-start"), ("flex-end", "items-end"), ("center", "items-center"),
   ("baseline", "items-baseline"), ("stretch", "items-stretch")]

def cursorClasses : ClassTable :=
  [("pointer", "cursor-pointer"), ("default", "cursor-default"), ("text", "cursor-text"),
   ("move", "cursor-move"), ("not-allowed", "cursor-not-allowed"), ("grab", "cursor-grab"),
   ("grabbing", "cursor-grabbing"), ("wait", "cursor-wait"), ("help", "cursor-help")]

def textAlignClasses : ClassTable :=
  [("left", "text-left"), ("center", "text-center"), ("right", "text-right"),
   ("justify", "text-justify")]

/-- Bounds of opacity, ascending, each with its percentage. -/
def opacityBounds : List (Number × Nat) :=
  [(0.05, 5), (0.1, 10), (0.2, 20), (0.25, 25), (0.3, 30), (0.4, 40), (0.5, 50), (0.6, 60),
   (0.7, 70), (0.75, 75), (0.8, 80), (0.9, 90), (0.95, 95)]

/-- The percentage of an opacity: nothing at or below zero, the least bound that is not below it,
and all beyond the last bound. -/
def opacityPercent (opacity : Number) : Nat :=
  if opacity.le 0 then 0
  else ((opacityBounds.find? fun b => opacity.le b.1).map Prod.snd).getD 100

/-- The class of an opacity, for a value that is a number or begins with one. -/
def opacityClass? (value : Scalar) : Option String :=
  match value.toNumber? with
  | none => none
  | some n => if n.isNaN then none else some ("opacity-" ++ toString (opacityPercent n))

def stackingLevels : List Int := [0, 10, 20, 30, 40, 50, -10, -20]

/-- The stacking level that a value means: a finite number rounded toward zero, or else the
integer at the beginning of its text. -/
def stackingLevel? (value : Scalar) : Option Int :=
  match value.asNumber?.filter Number.isFinite with
  | some n => some n.truncate
  | none => leadingInt? value.shown.toList

/-- The class of a stacking level; negative ones are written in brackets. -/
def stackingClass? (value : Scalar) : Option String :=
  ((stackingLevel? value).filter (stackingLevels.contains ·)).map fun z =>
    if z < 0 then "z-[" ++ toString z ++ "]" else "z-" ++ toString z

def sizeClass? (stem value : String) : Option String :=
  if isZeroLength value then some (stem ++ "-0")
  else if value = "auto" then some (stem ++ "-auto")
  else if value = "100%" then some (stem ++ "-full")
  else ((pixels? value).bind (sizeScale.snap? widestBound)).map fun ending => stem ++ "-" ++ ending

def spacingClass? (stem value : String) (greatest : Int) (allowsAuto : Bool) : Option String :=
  if isZeroLength value then some (stem ++ "-0")
  else if allowsAuto && value = "auto" then some (stem ++ "-auto")
  else ((pixels? value).bind (spacingScale.snap? greatest)).map fun ending => stem ++ "-" ++ ending

/-- The class of a color; hexadecimal codes match in either case. -/
def colorClass? (stem value : String) : Option String :=
  let folded := match value.toList with
    | '#' :: digits => String.ofList ('#' :: digits.map Char.toLower)
    | _ => value
  (colorNames.lookup folded).map fun color => stem ++ "-" ++ color

def textClass? (property value : String) : Option String :=
  match property with
  | "display" => displayClasses.lookup value
  | "position" => positionClasses.lookup value
  | "width" => sizeClass? "w" value
  | "height" => sizeClass? "h" value
  | "margin" => spacingClass? "m" value widestBound true
  | "padding" => spacingClass? "p" value widestBound false
  | "gap" => spacingClass? "gap" value gapBound false
  | "color" => colorClass? "text" value
  | "backgroundColor" => colorClass? "bg" value
  | "fontSize" => fontSizeClasses.lookup value
  | "fontWeight" => fontWeightClasses.lookup value
  | "border" => borderClasses.lookup value
  | "borderRadius" => borderRadiusClasses.lookup value
  | "flexDirection" => flexDirectionClasses.lookup value
  | "justifyContent" => justifyContentClasses.lookup value
  | "alignItems" => alignItemsClasses.lookup value
  | "cursor" => cursorClasses.lookup value
  | "textAlign" => textAlignClasses.lookup value
  | _ => none

/-- The class of a declaration. Numbers have a meaning for opacity and stacking alone. -/
def propertyClass? (property : String) (value : Scalar) : Option String :=
  if property = "opacity" then opacityClass? value
  else if property = "zIndex" then stackingClass? value
  else match value with
    | .number _ => none
    | value => textClass? property value.shown

/-- The margins and paddings of one side, each with its class stem, in the order they are
written. -/
def sideStems : List (String × String) :=
  [("marginTop", "mt"), ("marginRight", "mr"), ("marginBottom", "mb"), ("marginLeft", "ml"),
   ("paddingTop", "pt"), ("paddingRight", "pr"), ("paddingBottom", "pb"), ("paddingLeft", "pl")]

/-- The class of a one-sided margin or padding, when it is declared as text. -/
def sideClass? (styles : Dict Scalar) (property stem : String) : Option String :=
  ((styles.get? property).bind Scalar.asText?).bind fun value =>
    spacingClass? stem value sideBound true

/-- The classes of a style map: one for each declaration in order, then those of the sides. -/
def classList (styles : Dict Scalar) : List String :=
  (styles.entries.filterMap fun (property, value) => propertyClass? property value) ++
    (sideStems.filterMap fun (property, stem) => sideClass? styles property stem)

end Pagewright
