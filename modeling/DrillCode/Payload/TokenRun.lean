import DrillCode.Payload.Token
import DrillCode.Text.Space

/-! # Sequences of tokens

A sequence of tokens is read up to its end marker. It also stops where its text gets longer than a cap
and where a token cannot be read; then the tokens before still count. Its text is that of its tokens in
a row, without white space at the ends. -/

namespace DrillCode

/-- Why a sequence of tokens ended. -/
inductive Ending where
  | marker
  | cap
  | damage (error : DecodeError)
  deriving DecidableEq, Repr

/-- Tokens in a row, why they ended, and the place behind them. -/
structure TokenRun where
  tokens : List Token
  ending : Ending
  rest : BitReader
  deriving DecidableEq, Repr

namespace TokenRun

/-- Reads tokens while their text fits into `room` characters. -/
def read (room : Nat) (r : BitReader) : TokenRun :=
  match _h : ifRemaining Token.read r with
  | .error e rest => ⟨[], .damage e, rest⟩
  | .ok none rest => ⟨[], .marker, rest⟩
  | .ok (some token) rest =>
    if room < token.text.length then ⟨[token], .cap, rest⟩
    else
      let run := read (room - token.text.length) rest
      ⟨token :: run.tokens, run.ending, run.rest⟩
termination_by r.unread.length
decreasing_by exact (Token.read_advances.ifRemaining.ok _h).length_lt (by decide)

/-- The text of a sequence of tokens, with the white space at its ends. -/
def rawText (tokens : List Token) : List Char :=
  tokens.flatMap Token.text

/-- The text of a sequence of tokens. -/
def text (run : TokenRun) : List Char :=
  Text.trim (rawText run.tokens)

theorem read_ahead (room : Nat) (r : BitReader) : r.Ahead 0 (read room r).rest := by
  have hadvances := Token.read_advances.ifRemaining
  fun_induction read room r with
  | case1 room r e rest h => exact hadvances.error h
  | case2 room r rest h => exact (hadvances.ok h).mono (Nat.zero_le _)
  | case3 room r token rest h hcap => exact (hadvances.ok h).mono (Nat.zero_le _)
  | case4 room r token rest h hfit run ih => exact ((hadvances.ok h).trans ih).mono (Nat.zero_le _)

end TokenRun
end DrillCode
