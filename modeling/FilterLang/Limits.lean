/-!
# Counts and limits

* `countBound` : the bound of counts, which are lengths, positions and limits given from outside;
* `readCount` : a count from its decimal digits, left to right, with the first `CountError` met;
* `Limits` : the two limits of a parse.
-/

namespace FilterLang

/-- `2 ^ 64`. -/
def countBound : Nat := 18446744073709551616

/-- Why a text does not denote a count. -/
inductive CountError
  | empty
  | invalidDigit
  /-- The number is not below `countBound`. -/
  | tooLarge
  deriving DecidableEq

def CountError.message : CountError → String
  | empty => "cannot parse integer from empty string"
  | invalidDigit => "invalid digit found in string"
  | tooLarge => "number too large to fit in target type"

/-- The digits of `value` followed by those of the list. The bound is tested after each digit. -/
def readDigits (value : Nat) : List Char → Except CountError Nat
  | [] => .ok value
  | c :: cs =>
    if c.isDigit then
      let longer := value * 10 + (c.toNat - '0'.toNat)
      if longer < countBound then readDigits longer cs else .error .tooLarge
    else .error .invalidDigit

/-- A decimal number below `countBound`, with at most one leading plus sign. -/
def readCount : List Char → Except CountError Nat
  | [] => .error .empty
  | ['+'] => .error .invalidDigit
  | '+' :: cs => readDigits 0 cs
  | cs => readDigits 0 cs

structure Limits where
  /-- How many calls and groups may be open at once. -/
  maxDepth : Nat := 256
  /-- How many characters a text may have. -/
  maxInputLen : Nat := 1048576
  deriving DecidableEq

end FilterLang
