import AdaptiveLL.Token.Basic

/-!
# Vocabularies

The names under which token types are shown.
-/

namespace AdaptiveLL

/-- Names of token types. -/
structure Vocabulary where
  names : List (Int × String) := []

/-- The name of a token type: the end of the input has a fixed one, a type
    without a name is shown as its number. -/
def Vocabulary.nameOf (v : Vocabulary) (type : Int) : String :=
  if type = Token.endOfInput then "EOF"
  else (v.names.lookup type).getD (toString type)

end AdaptiveLL
