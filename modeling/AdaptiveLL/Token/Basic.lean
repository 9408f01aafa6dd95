/-!
# Tokens

The input of a parse is a sequence of tokens made elsewhere: each has a type,
which is what a grammar looks at, its text and its place. The type
`Token.endOfInput` marks the end of the input.

Places are machine words: sums of them wrap at `wordSize`.
-/

namespace AdaptiveLL

/-- The number of values of a machine word. -/
def wordSize : Nat := UInt64.size

/-- A piece of the input. -/
structure Token where
  /-- What the token is, as far as a grammar is concerned. -/
  type : Int
  /-- The text it was made from. -/
  text : String
  /-- The line it begins on. -/
  line : Nat
  /-- The column it begins at. -/
  column : Nat
  /-- Its place in the token sequence. -/
  index : Nat := 0
deriving DecidableEq, Repr

namespace Token

/-- The type of the token that ends every input. -/
def endOfInput : Int := -1

/-- Whether a token ends the input. -/
def isEnd (t : Token) : Bool :=
  t.type == endOfInput

/-- The text that stands for a token in messages. -/
def shownText (t : Token) : String :=
  if t.isEnd then "<EOF>" else t.text

/-- The token that ends an input at a given place. -/
def endAt (line column : Nat) : Token :=
  { type := endOfInput, text := "<EOF>", line, column }

/-- The token that ends an input after a token, on the same line. -/
def endAfter (t : Token) : Token :=
  endAt t.line ((t.column + t.text.utf8ByteSize) % wordSize)

end Token

end AdaptiveLL
