import DrillCode.Number.Numeral

/-! # JSON values

A JSON text as data: numbers stay as they are written and objects keep all their fields in order. What a
number or a field means is left to the reader of the value. -/

namespace DrillCode.Json

inductive Value where
  | null
  | bool (b : Bool)
  | number (n : Numeral)
  /-- A string; it has no text when one of its escapes names half of a surrogate pair alone. -/
  | string (text : Option String)
  | array (items : List Value)
  | object (fields : List (Option String × Value))
  deriving Inhabited

namespace Value

def text (s : String) : Value := string (some s)

/-- An object with texts as names. -/
def record (fields : List (String × Value)) : Value :=
  object (fields.map fun field => (some field.1, field.2))

def nat (n : Nat) : Value := number ⟨false, n, [], none⟩

def int (i : Int) : Value := number ⟨decide (i < 0), i.natAbs, [], none⟩

/-- Floating-point numbers have a digit behind the point, and an exponent below `10 ^ (-5)` and from
    `10 ^ 16` on. -/
def layout : Layout := ⟨.toEven, fun e => -5 ≤ e && e < 16, true⟩

/-- A floating-point number; one that is not finite has no form of its own. -/
def float (x : Float) : Value :=
  match Binary64.value x with
  | .finite negative m q => number (layout.numeral negative m q)
  | _ => null

end Value
end DrillCode.Json
