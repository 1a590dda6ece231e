import DrillCode.Bits.Reader

/-! # Elias delta codes

A positive number is written as its binary digits after the first, preceded by how many digits it has
in all, itself preceded by one zero fewer than that count has digits. A signed number is one zero bit
for zero, and otherwise a one bit and the code of its zigzag number, which interleaves the negative
numbers with the others. The reader takes the codes of `1` to `2 ^ 64 - 1` and refuses longer ones as
soon as their length is known. -/

namespace DrillCode.Elias

/-- The place of `v` in the sequence 0, -1, 1, -2, 2, … -/
def zigzag : (v : Int) → Nat
  | .ofNat n => 2 * n
  | .negSucc n => 2 * n + 1

/-- The number at place `n` of the sequence 0, -1, 1, -2, 2, … -/
def unzigzag (n : Nat) : Int :=
  if n % 2 = 0 then .ofNat (n / 2) else .negSucc (n / 2)

/-- How many binary digits a number has; none for zero. -/
def width (n : Nat) : Nat :=
  if n = 0 then 0 else n.log2 + 1

/-- The code of a positive number. -/
def code (n : Nat) : List Bool :=
  List.replicate (width (width n) - 1) false ++ Bits.ofNat (width (width n)) (width n) ++
    Bits.ofNat (width n - 1) n

/-- The code of a number; zero has none. -/
def code? (n : Nat) : Option (List Bool) :=
  if n = 0 then none else some (code n)

def signedCode (v : Int) : List Bool :=
  if v = 0 then [false] else true :: code (zigzag v)

/-- Counts the zeros before the next one bit. As many as `limit` of them announce a number of at least
    128 digits, which is refused at once. -/
def countZeros : (limit : Nat) → Scan Nat
  | 0 => throw (.integerOverflow 128)
  | limit + 1 => do
    let bit ← readBit
    if bit then pure 0 else (· + 1) <$> countZeros limit

def readUnsigned : Scan Nat := do
  let zeros ← countZeros 7
  let digits ← readOnto 1 zeros
  if 64 < digits then throw (.integerOverflow digits) else readOnto 1 (digits - 1)

def readSigned : Scan Int := do
  let nonzero ← readBit
  if nonzero then unzigzag <$> readUnsigned else pure 0

/-! ### Reading moves forward -/

theorem countZeros_advances (limit : Nat) : Scan.Advances 1 (countZeros limit) := by
  induction limit with
  | zero => exact .throw _
  | succ limit ih =>
    refine (readBit_advances.bind (k := 0) fun bit => ?_).mono (Nat.le_refl 1)
    split
    · exact .pure 0
    · exact (ih.map _).mono (Nat.zero_le 1)

theorem readUnsigned_advances : Scan.Advances 1 readUnsigned := by
  refine (countZeros_advances 7).bind (k := 0) fun zeros => ?_
  refine ((readOnto_advances zeros 1).bind (k := 0) fun digits => ?_).mono (Nat.zero_le _)
  split
  · exact .throw _
  · exact (readOnto_advances _ _).mono (Nat.zero_le _)

theorem readSigned_advances : Scan.Advances 1 readSigned := by
  refine readBit_advances.bind (k := 0) fun nonzero => ?_
  split
  · exact (readUnsigned_advances.map _).mono (Nat.zero_le 1)
  · exact .pure 0

end DrillCode.Elias
