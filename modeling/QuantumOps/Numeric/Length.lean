/-!
The length of a vector of two doubles. The root of the sum of the squares is corrected once for what
rounding has lost. Where the squares would leave the range of doubles both sides are scaled by a
power of two first, and a side that is nothing beside the other is added as it is. -/
namespace QuantumOps.Length

/-- The length for sides `a ≥ b`, corrected by the excess of the squared root over the sum of the
squares, which is computed from the distance of the root to the nearer of the two sides. -/
def corrected (a b : Float) : Float :=
  let h := Float.sqrt (a * a + b * b)
  let excess :=
    if h ≤ 2 * b then
      let d := h - b
      a * (2 * d - a) + (d - 2 * (a - b)) * d
    else
      let d := h - a
      2 * d * (a - 2 * b) + ((4 * d - b) * b + d * d)
  h - excess / (2 * h)

/-- The factor that brings the squares of very large and very small sides into range. -/
def scale : Float := Float.scaleB 1 (-600)

/-- Above this the squares of the sides are too large. -/
def large : Float := Float.scaleB 1 511

/-- Below this the squares of the sides are too small. -/
def small : Float := Float.scaleB 1 (-459)

/-- A side that is not more than this part of the other is nothing beside it. -/
def negligible : Float := Float.scaleB 1 (-54)

/-- The length for finite sides `a ≥ b ≥ 0`. -/
def ofSides (a b : Float) : Float :=
  if large < a then
    if b ≤ a * negligible then a + b else corrected (a * scale) (b * scale) / scale
  else if b < small then
    if b / negligible ≤ a then a + b else corrected (a / scale) (b / scale) * scale
  else if b ≤ a * negligible then a + b
  else corrected a b

/-- The length of the vector with the given coordinates; an infinite one makes it infinite. -/
def ofVector (x y : Float) : Float :=
  if x.isInf || y.isInf then 1 / 0
  else if x.isNaN || y.isNaN then x + y
  else if x.abs < y.abs then ofSides y.abs x.abs
  else ofSides x.abs y.abs

end QuantumOps.Length
