import Treewalk.Decimal

/-!
# The shortest decimal of a double

`Decimal.shortest x` is the decimal with the fewest digits that reads back as `x`, for a positive finite `x`; of
several it is the one nearest to `x`, and of two equally near the one whose last digit is even.

The search goes through the decimal grids, from a coarse one to finer ones.  On each grid only the two neighbours
of `x` can be the answer, since the decimals that read back as `x` form an interval around it.  Should no grid
give an answer, the exact expansion of `x` is taken, so that the result always reads back.
-/

namespace Treewalk

namespace Decimal

/-- The decimal `units * 10 ^ grid`. -/
def onGrid (grid : Int) (units : Nat) : Decimal where
  coefficient := units * Nat.pow 10 grid.toNat
  places := (-grid).toNat

/-- The two neighbours of `num / den` on a decimal grid, the nearer one first and the even one first on a tie. -/
def neighbours (num den : Nat) (grid : Int) : List Decimal :=
  let num := num * Nat.pow 10 (-grid).toNat
  let den := den * Nat.pow 10 grid.toNat
  let units := num / den
  let low := onGrid grid units
  let high := onGrid grid (units + 1)
  match compare (2 * (num % den)) den with
  | .lt => [low, high]
  | .gt => [high, low]
  | .eq => if units % 2 = 0 then [low, high] else [high, low]

/-- The decimal equal to `mantissa * 2 ^ exponent`. -/
def exact (mantissa : Nat) (exponent : Int) : Decimal where
  coefficient := mantissa * Nat.pow 2 exponent.toNat * Nat.pow 5 (-exponent).toNat
  places := (-exponent).toNat

/-- A decimal grid that is coarser than `mantissa * 2 ^ exponent` is large, by at most three steps. -/
def coarseGrid (mantissa : Nat) (exponent : Int) : Int :=
  (Float.Model.totalExponent mantissa exponent * 30103).fdiv 100000 + 2

/-- How many grids are searched: seventeen digits tell all doubles apart, and a few grids are too coarse. -/
def searchedGrids : Nat := 24

/-- The decimal with the fewest digits that reads back as `x`, for a positive finite `x`; zero for any other. -/
def shortest (x : Float) : Decimal :=
  match x.toModel.unpack with
  | .finite _ mantissa exponent _ =>
    let num := mantissa * Nat.pow 2 exponent.toNat
    let den := Nat.pow 2 (-exponent).toNat
    let top := coarseGrid mantissa exponent
    ((List.range searchedGrids).findSome? fun (steps : Nat) =>
      (neighbours num den (top - steps)).find? fun d => d.toFloat = x).getD (exact mantissa exponent)
  | _ => ⟨0, 0⟩

end Decimal

end Treewalk
