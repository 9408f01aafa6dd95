import AdaptiveLL.Grammar.Body
import AdaptiveLL.Network.Printer
import AdaptiveLL.Parse

/-!
# A demonstration

Shows the network of the grammar `s : ID | ID INT ID`, parses `abc 34 def` with
it, and shows the predictions made, the diagnostics and the automata.
-/

namespace AdaptiveLL.Main

/-- The grammar `s : ID | ID INT ID`, where `ID` is `1` and `INT` is `2`. -/
def rules : List (RuleDefinition Unit) :=
  [{ name := "s",
     body := .block [.token 1, .sequence [.token 1, .token 2, .token 1]] }]

/-- The names of the token types. -/
def vocabulary : Vocabulary :=
  { names := [(1, "ID"), (2, "INT")] }

/-- The tokens of `abc 34 def`. -/
def input : Input :=
  .ofList
    [{ type := 1, text := "abc", line := 1, column := 0 },
     { type := 2, text := "34", line := 1, column := 4 },
     { type := 1, text := "def", line := 1, column := 7 }]

/-- What there is to show of a parse of the input, and whether it succeeds. -/
def report (g : Grammar Unit) : String × Bool :=
  let options : ParseOptions := { reportAmbiguities := true }
  let start : ParseState Unit := { input, cache := .ofNetwork g.toNetwork, host := () }
  let (result, s) := g.parse 10000 options vocabulary "s" start
  let trace := String.join (s.predictions.reverse.map fun p => p.traceLine g.toNetwork s.input)
  match result with
  | .error fault => (g.text "s" ++ trace ++ fault.message ++ "\n", false)
  | .ok result =>
    let diagnostics := String.join (result.diagnostics.map fun d => d.text ++ "\n")
    (g.text "s" ++ trace ++ diagnostics ++ s.cache.text vocabulary, result.success)

end AdaptiveLL.Main

/-- Runs the demonstration. -/
def main : IO UInt32 := do
  match AdaptiveLL.Grammar.ofRules AdaptiveLL.Main.rules with
  | .error error => do
    IO.eprintln error.message
    return 1
  | .ok g => do
    let (text, success) := AdaptiveLL.Main.report g
    IO.print text
    return if success then 0 else 1
