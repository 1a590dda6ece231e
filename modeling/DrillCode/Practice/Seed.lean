import DrillCode.Practice.Draw

/-! # Words from a seed

The words that a program draws from are the key stream of the ChaCha cipher with twelve rounds. Where a seed
is given, a generator of 64 bits spreads it to the eight words of the key; else the key is random bytes. The
state of the cipher has the key behind four constants, then the number of the block in two words and a nonce of
zero. A block is the state after the rounds added to the state before, and two of its words, the lower one
first, make one word to draw from. -/

namespace DrillCode

/-- The key of the cipher. -/
abbrev CipherKey := Vector UInt32 8

/-- The state of the cipher. -/
abbrev CipherState := Vector UInt32 16

namespace CipherState

def rotateLeft (word n : UInt32) : UInt32 :=
  (word <<< n) ||| (word >>> (32 - n))

/-- Adds the word at `b` to the one at `a`, and then changes the one at `d` by that and rotates it. -/
def mix (s : CipherState) (a b d : Fin 16) (n : UInt32) : CipherState :=
  let s := s.set a (s[a] + s[b])
  s.set d (rotateLeft (s[d] ^^^ s[a]) n)

def quarterRound (s : CipherState) (a b c d : Fin 16) : CipherState :=
  (((s.mix a b d 16).mix c d b 12).mix a b d 8).mix c d b 7

/-- A round on the columns of the state and a round on its diagonals. -/
def doubleRound (s : CipherState) : CipherState :=
  let s := (s.quarterRound 0 4 8 12).quarterRound 1 5 9 13
  let s := (s.quarterRound 2 6 10 14).quarterRound 3 7 11 15
  let s := (s.quarterRound 0 5 10 15).quarterRound 1 6 11 12
  (s.quarterRound 2 7 8 13).quarterRound 3 4 9 14

/-- The four words in front of every key. -/
def constants : Vector UInt32 4 :=
  #v[0x61707865, 0x3320646E, 0x79622D32, 0x6B206574]

/-- The state in front of the rounds. -/
def start (key : CipherKey) (block : UInt64) : CipherState :=
  constants ++ key ++ #v[block.toUInt32, (block >>> 32).toUInt32, 0, 0]

end CipherState

namespace CipherKey

/-- A block of the key stream. -/
def block (key : CipherKey) (number : Nat) : CipherState :=
  let start := CipherState.start key (.ofNat number)
  start.zipWith (· + ·) (Nat.repeat CipherState.doubleRound 6 start)

/-- One step of the generator that spreads a seed. -/
def step (seed : UInt64) : UInt64 :=
  seed * 6364136223846793005 + 11634580027462260723

/-- The word of a state of the generator: its upper bits, folded and turned by the topmost five. -/
def wordOf (seed : UInt64) : UInt32 :=
  let folded := (((seed >>> 18) ^^^ seed) >>> 27).toUInt32
  let turn := (seed >>> 59).toUInt32
  (folded >>> turn) ||| (folded <<< (32 - turn))

def ofSeed (seed : UInt64) : CipherKey :=
  .ofFn fun i => wordOf (Nat.repeat step (i + 1) seed)

/-- The key that is spelled by 32 bytes, each word from its lowest byte on. -/
def ofBytes (bytes : List UInt8) : CipherKey :=
  .ofFn fun i => ((bytes.drop (4 * i)).take 4).foldr (fun byte word => 256 * word + byte.toUInt32) 0

end CipherKey

namespace WordSupply

/-- Words of half the width in pairs, the lower one first. -/
def pairs : List UInt32 → List UInt64
  | low :: high :: rest => (high.toUInt64 <<< 32 ||| low.toUInt64) :: pairs rest
  | _ => []

/-- The first words of a key stream. -/
def ofKey (key : CipherKey) (count : Nat) : WordSupply :=
  ⟨((List.range ((count + 7) / 8)).flatMap fun n => pairs (key.block n).toList).take count, 0⟩

example : (ofKey (.ofSeed 42) 2).words = [9713269763989775522, 10011513049433592189] := by decide +kernel

end WordSupply
end DrillCode
