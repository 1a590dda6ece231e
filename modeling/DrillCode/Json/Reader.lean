import DrillCode.Json.Value
import DrillCode.OrderedMap

/-! # What JSON values mean

Numbers, lists, maps and records in JSON values. A record is an object, whose unknown fields do not count
and whose known fields occur once, or an array of its fields in order. -/

namespace DrillCode.Json

namespace Number

/-- The numeral has no point and no exponent. -/
def isInteger (n : Numeral) : Bool :=
  n.fraction.isEmpty && n.exponent.isNone

/-- A natural number below `2 ^ 64`. -/
def nat? (n : Numeral) : Option Nat :=
  if isInteger n && !n.negative && n.whole < wordCount then some n.whole else none

/-- A signed 64-bit integer. A minus sign stands only before a positive number. -/
def int? (n : Numeral) : Option Int64 :=
  if !isInteger n then none
  else if n.negative then
    if 0 < n.whole && 2 * n.whole ≤ wordCount then some (.ofInt (-(n.whole : Int))) else none
  else if 2 * n.whole < wordCount then some (.ofInt n.whole) else none

/-- The number that digits spell after `n`, as long as it stays below `2 ^ 64`, and how many digits are
    left then. -/
def takeDigits (n : Nat) : (digits : List Digit) → Nat × Nat
  | [] => (n, 0)
  | d :: digits =>
    if 10 * n + d.val < wordCount then takeDigits (10 * n + d.val) digits else (n, digits.length + 1)

/-- The power `10 ^ n` as a floating-point number. -/
def tenTo (n : Nat) : Float :=
  Float.ofScientific 1 false n

/-- The number `x / 10 ^ n`, divided by `10 ^ 308` again and again while `n` is greater. -/
def scaleDown (x : Float) (n : Nat) : Float :=
  if x == 0 then x
  else if n ≤ 308 then x / tenTo n
  else scaleDown (x / tenTo 308) (n - 308)
termination_by n

/-- The number `m * 10 ^ e`, computed by one rounded multiplication or division. It must not overflow. -/
def scale? (m : Nat) (e : Int) : Option Float :=
  let x := Float.ofNat m
  if e < 0 then some (scaleDown x e.natAbs)
  else if m = 0 then some x
  else if 308 < e then none
  else
    let y := x * tenTo e.toNat
    if y.isInf then none else some y

/-- The magnitude of a numeral as a floating-point number. An integer below `2 ^ 64` is rounded once; of
    any other numeral as many digits count as spell a number below `2 ^ 64`. -/
def magnitude? (n : Numeral) : Option Float :=
  if isInteger n && n.whole < wordCount then some (Float.ofNat n.whole)
  else
    let (m, dropped) := takeDigits 0 (Digit.last (digitCount n.whole) n.whole)
    let (m, left) := takeDigits m n.fraction
    scale? m (n.exponent.getD 0 + dropped - (n.fraction.length - left : Nat))

def float? (n : Numeral) : Option Float :=
  (magnitude? n).map fun x => if n.negative then -x else x

end Number

namespace Value

def bool? : Value → Option Bool
  | bool b => some b
  | _ => none

/-- A string with a text. -/
def text? : Value → Option String
  | string text => text
  | _ => none

def nat? : Value → Option Nat
  | number n => Number.nat? n
  | _ => none

def int? : Value → Option Int64
  | number n => Number.int? n
  | _ => none

def float? : Value → Option Float
  | number n => Number.float? n
  | _ => none

/-- A list whose items `item?` reads. -/
def list? {α : Type} (item? : Value → Option α) : Value → Option (List α)
  | array items => items.mapM item?
  | _ => none

/-- A map whose keys and values `key?` and `value?` read. -/
def map? {κ α : Type} [DecidableEq κ] (key? : String → Option κ) (value? : Value → Option α) :
    Value → Option (OrderedMap κ α)
  | object fields => do
    let entries ← fields.mapM fun field => do
      let key ← key? (← field.1)
      let value ← value? field.2
      pure (key, value)
    pure (.ofList entries)
  | _ => none

/-- The value of the field with a name, if there is one; there must not be two. -/
def field? (fields : List (Option String × Value)) (name : String) : Option (Option Value) :=
  match fields.filter fun field => field.1 == some name with
  | [] => some none
  | [field] => some (some field.2)
  | _ => none

/-- The values of named fields, in the order of the names. All names in the object must be texts. -/
def fields? (names : List String) (fields : List (Option String × Value)) :
    Option (List (Option Value)) :=
  if fields.all fun field => field.1.isSome then names.mapM (field? fields) else none

/-- The fields of a record that are there. -/
def partial? (names : List String) : Value → Option (List (Option Value))
  | object fields => fields? names fields
  | array items =>
    if items.length ≤ names.length then
      some (items.map some ++ List.replicate (names.length - items.length) none)
    else none
  | _ => none

/-- The fields of a record that are there; an array must hold them all. -/
def record? (names : List String) : Value → Option (List (Option Value))
  | object fields => fields? names fields
  | array items => if items.length = names.length then some (items.map some) else none
  | _ => none

end Value
end DrillCode.Json
