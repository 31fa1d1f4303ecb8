import Clausify.Number.Numeral

/-!
The arithmetic of functional constraints. Each function is undefined where the exact result does
not exist or does not fit 64 bits, and exact everywhere else. Quotients round towards negative
infinity and remainders take the sign of the divisor.
-/

namespace Clausify.Arithmetic

def plus (x y : Word) : Option Word :=
  let sum := x + y
  if (0 < y && sum < x) || (y < 0 && x < sum) then none else some sum

def minus (x y : Word) : Option Word :=
  let difference := x - y
  if (0 < y && x < difference) || (y < 0 && difference < x) then none else some difference

def times (x y : Word) : Option Word :=
  if x = 0 || y = 0 then some 0
  else
    let product := x * y
    if product / y ≠ x || (x = -1 && y = Int64.minValue) || (y = -1 && x = Int64.minValue) then
      none
    else some product

/-- The quotient rounded towards negative infinity. -/
def floorDiv (x y : Word) : Option Word :=
  if y = 0 || (x = Int64.minValue && y = -1) then none
  else
    let quotient := x / y
    if x % y ≠ 0 && ((x < 0) != (y < 0)) then some (quotient - 1) else some quotient

/-- The remainder that goes with `floorDiv`. -/
def floorMod (x y : Word) : Option Word :=
  if y = 0 then none
  else
    let remainder := x % y
    if remainder ≠ 0 && ((remainder < 0) != (y < 0)) then some (remainder + y)
    else some remainder

def absDiff (x y : Word) : Option Word := if y < x then minus x y else minus y x

end Clausify.Arithmetic
