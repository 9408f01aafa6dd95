import AdaptiveLL.Token.Basic

/-!
# Inputs

An `Input` is a token sequence that is consumed up to a position. It always ends
with an end token (`Input.ofList` adds one where it is missing), which stands for
everything behind it: reading past the end gives the last token, and consuming
stops at an end token.
-/

namespace AdaptiveLL

/-- A sequence of tokens and the place up to which it is consumed. -/
structure Input where
  tokens : Array Token
  position : Nat := 0

namespace Input

/-- The tokens with an end token behind them, unless they end with one. -/
def ended (tokens : List Token) : List Token :=
  match tokens.getLast? with
  | none => [Token.endAt 1 0]
  | some last => if last.isEnd then tokens else tokens ++ [last.endAfter]

/-- The input that consists of some tokens, which are numbered by their places. -/
def ofList (tokens : List Token) : Input :=
  { tokens := ((ended tokens).mapIdx fun i t => { t with index := i }).toArray }

instance : Inhabited Input := ⟨ofList []⟩

/-- The number of tokens, the end token included. -/
def size (s : Input) : Nat :=
  s.tokens.size

/-- The token that ends the input. -/
def last (s : Input) : Token :=
  s.tokens.back?.getD (Token.endAt 1 0)

/-- The token at a place; behind the end there are only last tokens. -/
def get (s : Input) (i : Nat) : Token :=
  s.tokens[i]?.getD s.last

/-- The token consumed next. -/
def current (s : Input) : Token :=
  s.get s.position

/-- The token at the distance `k` from a position, counting from one. Distances
    are words, so the place looked at wraps. -/
def lookFrom (s : Input) (position k : Nat) : Token :=
  s.get ((position + k - 1) % wordSize)

/-- The token `k` ahead, where `1` is the current one, and so is `0`. -/
def look (s : Input) (k : Nat) : Token :=
  if k = 0 then s.current else s.lookFrom s.position k

/-- Moves to a place, or to the end if it lies behind. -/
def seek (s : Input) (i : Nat) : Input :=
  { s with position := if i < s.size then i else s.size - 1 }

/-- Moves behind the current token, unless it ends the input. -/
def consume (s : Input) : Input :=
  if s.current.isEnd then s else { s with position := s.position + 1 }

/-- Moves behind some tokens, but not behind one that ends the input. -/
def skip (s : Input) : Nat → Input
  | 0 => s
  | n + 1 => if s.current.isEnd then s else s.consume.skip n

/-- The tokens of a list up to its first end token, that one included. -/
def throughEnd : List Token → List Token
  | [] => []
  | t :: rest => if t.isEnd then [t] else t :: throughEnd rest

/-- The tokens that can still be consumed, and the end token behind them. -/
def ahead (s : Input) : List Token :=
  throughEnd (s.tokens.toList.drop s.position)

/-- The texts from one place to another, up to the first end token. -/
def span (s : Input) (first last : Nat) : String :=
  let tokens := s.tokens.toList.drop first
  let shown := (throughEnd (if tokens.isEmpty then [s.last] else tokens)).take (last + 1 - first)
  " ".intercalate (shown.map Token.shownText)

end Input

end AdaptiveLL
