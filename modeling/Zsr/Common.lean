import Zsr.CLib.Double
import Zsr.CLib.Text

namespace Zsr
open CLib

/-- The loop of `is_digit` over what is left of the array, terminator included;
`none` is a read behind it. -/
def isDigitLoop (len : ℕ) : ℕ → Text → Option Bool
  | _, [] => none
  | i, c :: s =>
    if c = '\x00' then some true
    else if c = '.' then
      if i + 1 = 1 ∨ i + 1 = len then some false
      else
        match s with
        | [] => none
        | d :: s => if d.isDigit then isDigitLoop len (i + 1) s else some false
    else if c.isDigit then isDigitLoop len (i + 1) s else some false

/-- `is_digit`, on a string without its terminator. -/
def isDigit (s : Text) : Option Bool :=
  match s ++ ['\x00'] with
  | '-' :: t => isDigitLoop s.length 0 t
  | t => isDigitLoop s.length 0 t

/-- The conversion to `int64_t`; out of range it gives what x86 gives. -/
def toInt64 : Double → ℤ
  | .fin q =>
    let t := if 0 ≤ q then ⌊q⌋ else ⌈q⌉
    if -2 ^ 63 ≤ t ∧ t < 2 ^ 63 then t else -2 ^ 63
  | _ => -2 ^ 63

def isPositive : Double → Bool
  | .fin q => 0 < q
  | .inf s => !s
  | .nan _ => false

def roundWithPrec (d : Double) (precision : ℕ) : Double :=
  if d = 0 then d
  else
    let i := d * .fin (10 ^ precision)
    let i := if isPositive d then toInt64 (i + .fin (1 / 2)) else toInt64 (i - .fin (1 / 2))
    .fin i * .fin (10 ^ (-precision : ℤ))

end Zsr
