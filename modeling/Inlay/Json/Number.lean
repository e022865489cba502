/-!
# Numbers in JSON

A number keeps its spelling as far as it matters. Its value in double
precision is found in two roundings: the leading digits that fit into 64
bits make one number, a power of ten the other, and both are rounded before
they are multiplied. A number whose product is infinite is out of range.
-/

namespace Inlay

/-- Rounds to the nearest number with the given count of significant binary
digits. Halfway, the even one is taken. -/
def roundToBits (bits n : Nat) : Nat :=
  let unit := 1 <<< (n.log2 + 1 - bits)
  let low := n % unit
  if 2 * low < unit || (2 * low == unit && n / unit % 2 == 0) then n - low
  else n - low + unit

namespace Json

/-- A number as it was spelled: sign, whole part, digits of the fraction and
exponent. -/
structure Number where
  negative : Bool
  whole : Nat
  fraction : Option (List Nat)
  exponent : Option Int
deriving DecidableEq, Repr

namespace Number

def ofNat (n : Nat) : Number :=
  ⟨false, n, none, none⟩

/-- The natural number that is spelled without sign, fraction and exponent. -/
def toNat? (n : Number) : Option Nat :=
  if n.negative || n.fraction.isSome || n.exponent.isSome then none else some n.whole

/-! ## Range -/

/-- The number without as many last digits as must go for it to fit into 64
bits, and the count of those digits. -/
def clip (n : Nat) : Nat × Nat :=
  if n < UInt64.size then (n, 0)
  else
    let shorter := clip (n / 10)
    (shorter.1, shorter.2 + 1)
termination_by n
decreasing_by
  rename_i h
  exact Nat.div_lt_self (Nat.lt_of_lt_of_le (by decide) (Nat.not_lt.mp h)) (by decide)

/-- The number with further digits appended as long as it fits into 64 bits,
and the count of those digits. -/
def extend (n : Nat) : List Nat → Nat × Nat
  | [] => (n, 0)
  | digit :: digits =>
      if 10 * n + digit < UInt64.size then
        let longer := extend (10 * n + digit) digits
        (longer.1, longer.2 + 1)
      else (n, 0)

/-- The leading digits that fit into 64 bits, and the power of ten they are
multiplied by. -/
def leading (n : Number) : Nat × Int :=
  let head := clip n.whole
  let digits := extend head.1 (n.fraction.getD [])
  (digits.1, n.exponent.getD 0 + head.2 - digits.2)

/-- The least product that is infinite in double precision: halfway between
the greatest finite number and the next power of two. -/
def overflowBound : Nat :=
  (1 <<< 1024) - (1 <<< 970)

def isFinite (n : Number) : Bool :=
  match n.leading with
  | (digits, .ofNat scale) =>
      digits == 0 ||
        (scale ≤ 308 &&
          decide (roundToBits 53 digits * roundToBits 53 (Nat.pow 10 scale) < overflowBound))
  | (_, .negSucc _) => true

end Number

end Json

end Inlay
