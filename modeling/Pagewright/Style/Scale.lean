import Pagewright.Number.Read

/-!
Scales of lengths. A length in pixels snaps to the least bound of its scale that is not below it;
scales are ascending, and each use of a scale stops at a greatest bound of its own.
-/

namespace Pagewright

/-- Ascending bounds in pixels, each with the class ending it stands for. -/
abbrev Scale := List (Int × String)

def sizeScale : Scale :=
  [(4, "px"), (8, "2"), (12, "3"), (16, "4"), (20, "5"), (24, "6"), (32, "8"), (40, "10"),
   (48, "12"), (64, "16"), (80, "20"), (96, "24"), (128, "32"), (160, "40"), (192, "48"),
   (256, "64"), (320, "80"), (384, "96")]

def spacingScale : Scale :=
  [(1, "px"), (2, "0.5"), (4, "1"), (6, "1.5"), (8, "2"), (10, "2.5"), (12, "3"), (14, "3.5"),
   (16, "4"), (20, "5"), (24, "6"), (28, "7"), (32, "8"), (36, "9"), (40, "10"), (44, "11"),
   (48, "12"), (56, "14"), (64, "16"), (80, "20"), (96, "24"), (112, "28"), (128, "32"),
   (144, "36"), (160, "40"), (176, "44"), (192, "48"), (208, "52"), (224, "56"), (240, "60"),
   (256, "64"), (288, "72"), (320, "80"), (384, "96")]

/-- The greatest bound of sizes, and of margins and paddings on all sides. -/
def widestBound : Int := 384

/-- The greatest bound of gaps. -/
def gapBound : Int := 96

/-- The greatest bound of margins and paddings on one side. -/
def sideBound : Int := 24

/-- The class ending of the least bound that is not below a length. -/
def Scale.snap? (scale : Scale) (greatest length : Int) : Option String :=
  ((scale.takeWhile fun b => b.1 ≤ greatest).find? fun b => length ≤ b.1).map Prod.snd

/-- The whole pixels of a text that ends in the unit. -/
def pixels? (value : String) : Option Int :=
  if ['p', 'x'].isSuffixOf value.toList then leadingInt? value.toList else none

def isZeroLength (value : String) : Bool :=
  let bare := ((trim value.toList).reverse.dropWhile fun c => c.isAlpha || c = '%').reverse
  (Number.ofText? bare).any Number.isZero

end Pagewright
