import DrillCode.Number.Binary64

/-! # The shortest decimal that reads back

The numbers that round to `m * 2 ^ q` form an interval around it. Its ends lie half a unit away, below
only a quarter of one where the unit gets smaller, and belong to it if `m` is even. The shortest decimal
of `m * 2 ^ q` is the point of the interval on the coarsest grid of multiples of a power of ten that has
one, and the nearer one where two of its neighbours on that grid lie in the interval. -/

namespace DrillCode.Shortest

/-- What happens to a number halfway between its two neighbours. -/
inductive Tie where
  | up
  | toEven
  deriving DecidableEq, Repr

/-- The numerator of `m * 2 ^ q / 10 ^ k`. -/
def numerator (m : Nat) (q k : Int) : Nat :=
  m * 2 ^ q.toNat * 10 ^ (-k).toNat

/-- The denominator of `m * 2 ^ q / 10 ^ k`. -/
def denominator (q k : Int) : Nat :=
  2 ^ (-q).toNat * 10 ^ k.toNat

/-- The lower end of the interval of `m * 2 ^ q`, in units of `2 ^ (q - 2)`. -/
def lowEnd (m : Nat) (q : Int) : Nat :=
  if m = Binary64.fractionCount ∧ Binary64.minExponent < q then 4 * m - 1 else 4 * m - 2

/-- The upper end of the interval of `m * 2 ^ q`, in units of `2 ^ (q - 2)`. -/
def highEnd (m : Nat) : Nat :=
  4 * m + 2

/-- The number `c * 10 ^ k` rounds to `m * 2 ^ q`. -/
def inside (m : Nat) (q k : Int) (c : Nat) : Bool :=
  let low := numerator (lowEnd m q) (q - 2) k
  let point := c * denominator (q - 2) k
  let high := numerator (highEnd m) (q - 2) k
  if m % 2 = 0 then low ≤ point && point ≤ high else low < point && point < high

/-- The multiple of `10 ^ k` in the interval of `m * 2 ^ q` that is nearest to it, if there is one. -/
def onGrid (tie : Tie) (m : Nat) (q k : Int) : Option Nat :=
  let n := numerator (4 * m) (q - 2) k
  let d := denominator (q - 2) k
  let c := n / d
  match c != 0 && inside m q k c, inside m q k (c + 1) with
  | false, false => none
  | true, false => some c
  | false, true => some (c + 1)
  | true, true =>
    if 2 * (n % d) < d then some c
    else if d < 2 * (n % d) then some (c + 1)
    else match tie with
      | .up => some (c + 1)
      | .toEven => some (if c % 2 = 0 then c else c + 1)

/-- An exponent `k` such that `10 ^ k` is greater than `m * 2 ^ q`: three tenths, a little more than the
    logarithm of two, of a bound for the binary exponent. -/
def topExponent (m : Nat) (q : Int) : Int :=
  let binary := (m.log2 : Int) + 1 + q
  binary * 30103 / 100000 + 1

/-- The shortest decimal of `m * 2 ^ q` as a pair `(c, k)` that stands for `c * 10 ^ k`. A number has
    at most 17 digits before its grid has a point in the interval. -/
def decimal (tie : Tie) (m : Nat) (q : Int) : Nat × Int :=
  let top := topExponent m q
  let found := (List.range 20).findSome? fun i : Nat =>
    let k := top - (i : Int)
    (onGrid tie m q k).map fun c => (c, k)
  found.getD (m * 2 ^ q.toNat * 10 ^ (-q).toNat / 2 ^ (-q).toNat, -((-q).toNat : Int))

end DrillCode.Shortest
