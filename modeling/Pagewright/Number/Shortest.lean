import Pagewright.Number.Basic

/-!
The shortest decimal that reads back as a given number. A decimal reads back when it lies in the
interval of reals that round to the number; the ends belong to the interval exactly when the
significand is even. On the coarsest decimal grid with a point in the interval, one of the two
grid points next to the number is such a point.
-/

namespace Pagewright

structure Decimal where
  coefficient : Nat
  exponent : Int
deriving DecidableEq, Repr

namespace Number

/-- A finite nonzero number on a decimal grid: the number is `point / step` grid units, and the
reals that round to it are those between `low / step` and `high / step`. -/
structure OnGrid where
  step : Nat
  low : Nat
  point : Nat
  high : Nat

/-- Places a finite nonzero number on the grid of the multiples of `10 ^ k`. All lengths are in
quarters of the gap above the number; the gap below is half as wide at a power of two. -/
def onGrid (n : Number) (k : Int) : OnGrid :=
  let e := n.exponent - 2
  let up := Nat.pow 2 e.toNat * Nat.pow 10 (-k).toNat
  let m := 4 * n.significand
  let below := if n.significand = leadingWeight && n.exponent ≠ -1074 then 1 else 2
  ⟨Nat.pow 10 k.toNat * Nat.pow 2 (-e).toNat, (m - below) * up, m * up, (m + 2) * up⟩

/-- Whether the grid point `j` reads back as the number. -/
def OnGrid.readsBack (g : OnGrid) (endsIncluded : Bool) (j : Nat) : Bool :=
  if endsIncluded then g.low ≤ j * g.step && j * g.step ≤ g.high
  else g.low < j * g.step && j * g.step < g.high

/-- The nearer of the grid points next to the number, among those that read back. -/
def OnGrid.choose? (g : OnGrid) (endsIncluded tieUp : Bool) : Option Nat :=
  let below := g.point / g.step
  let rest := g.point % g.step
  let lower := g.readsBack endsIncluded below
  let upper := g.readsBack endsIncluded (below + 1)
  let preferUpper := g.step < 2 * rest || (g.step = 2 * rest && (tieUp || below % 2 = 1))
  if lower && upper then some (if preferUpper then below + 1 else below)
  else if lower then some below
  else if upper then some (below + 1)
  else none

/-- The shortest decimal that reads back as a finite number, and the nearest of those. Of two at
the same distance the upper one is taken with `tieUp`, else the even one. The search starts on a
grid that is too coarse and needs at most twenty steps down. -/
def shortest (tieUp : Bool) (n : Number) : Decimal :=
  if n.isZero then ⟨0, 0⟩
  else
    let start := ((n.significand.log2 : Int) + n.exponent) * 30103 / 100000 + 2
    let found := (List.range 25).findSome? fun i : Nat =>
      let k := start - i
      ((n.onGrid k).choose? (n.significand % 2 = 0) tieUp).map (⟨·, k⟩)
    found.getD ⟨0, 0⟩

end Number

end Pagewright
