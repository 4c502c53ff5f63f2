import Pagewright.Animation.Basic

/-!
Keyframes gathered by percentage of the duration. In a bucket the last value of a property wins,
while the calls of transform channels add up in one composite declaration.
-/

namespace Pagewright

/-- The percentage of a duration at which a time falls, with halves rounded up. Without a finite
positive duration everything falls at zero. -/
def percentOf (time duration : Number) : Int :=
  if duration.le 0 || !duration.isFinite then 0
  else (time / duration * 100 + 0.5).floorInt64

/-- The declarations at one percentage, property by property. -/
abbrev Declarations := Dict String

/-- Declares the value of a track: a property outright, a channel as a further call of the
composite transform, and an unknown channel not at all. -/
def Track.declare (t : Track) (value : String) (d : Declarations) : Declarations :=
  match t.target with
  | .property name => d.insert name value
  | .channel c =>
    let call := c.function ++ "(" ++ value ++ ")"
    match d.get? "transform" with
    | some calls => d.insert "transform" (calls ++ " " ++ call)
    | none => d.insert "transform" call
  | .unknownChannel => d

/-- Changes the bucket of a percentage, which is created at its place if it is missing. -/
def changeBucket (p : Int) (f : Declarations → Declarations) :
    List (Int × Declarations) → List (Int × Declarations)
  | [] => [(p, f .empty)]
  | (q, d) :: rest =>
    if p < q then (p, f .empty) :: (q, d) :: rest
    else if p = q then (q, f d) :: rest
    else (q, d) :: changeBucket p f rest

/-- The declarations of an animation, in ascending order of percentage. -/
def Animation.buckets (a : Animation) : List (Int × Declarations) :=
  a.samples.foldl (fun buckets (t, k, value) =>
    changeBucket (percentOf k.time a.duration) (t.declare value.shown) buckets) []

end Pagewright
