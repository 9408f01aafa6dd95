import AdaptiveLL.Prediction.Frontier
import AdaptiveLL.Prediction.LoopExit

/-!
# Verdicts

When live configurations settle a decision (`Verdict.ofConfigs?`): a non-greedy
loop is left, one alternative is alone, or several alternatives have come to
exactly the same places, so that no token can tell them apart
(`indistinguishable`). After the end of the input there is nothing left to wait
for. Of alternatives that are not told apart the least is taken.
-/

namespace AdaptiveLL

/-- The alternative that a decision is settled by. -/
structure Verdict where
  alt : Int
  /-- The alternatives that it could not be told apart from, itself included;
      none if it is the only one. -/
  conflict : List Int := []
deriving DecidableEq, Repr

/-- Whether the alternative is one of several. -/
def Verdict.isAmbiguous (v : Verdict) : Bool :=
  !v.conflict.isEmpty

/-- The alternatives that have come to a place. -/
def altsAt (configs : List Config) (place : List Int) : List Int :=
  Frontier.altsOf (configs.filter fun c => c.place == place)

/-- The alternatives that have come to each place. -/
def altsByPlace (configs : List Config) : Std.TreeMap (List Int) (List Int) :=
  configs.foldl (fun m c => m.insert c.place (Ascending.insert c.alt (m.getD c.place []))) {}

/-- The alternatives, at least two, that have come to every place that any has
    come to; none if there are no such. -/
def indistinguishable (configs : List Config) : List Int :=
  match configs with
  | [] => []
  | c :: _ =>
    let byPlace := altsByPlace configs
    let alts := byPlace.getD c.place []
    if 2 ≤ alts.length ∧ configs.all (fun d => byPlace.getD d.place [] == alts) then alts else []

/-- Every place is found with the alternatives that have come to it. -/
theorem altsByPlace_getD (configs : List Config) (place : List Int) :
    (altsByPlace configs).getD place [] = altsAt configs place := by
  have fold (l : List Config) (m : Std.TreeMap (List Int) (List Int)) :
      (l.foldl (fun m c => m.insert c.place (Ascending.insert c.alt (m.getD c.place []))) m).getD
        place [] =
      Ascending.insertAll ((l.filter fun c => c.place == place).map fun c => c.alt)
        (m.getD place []) := by
    induction l generalizing m with
    | nil => rfl
    | cons c l ih =>
      rw [List.foldl_cons, ih, Std.TreeMap.getD_insert]
      by_cases h : c.place = place
      · subst h
        simp [Ascending.insertAll]
      · simp [h]
  exact (fold configs {}).trans (by simp [altsAt, Frontier.altsOf, Ascending.ofList])

/-- What live configurations settle a decision by, if they do. -/
def Verdict.ofConfigs? (exit : LoopExit) (afterEnd : Bool) (configs : List Config) :
    Option Verdict :=
  match exit.reached? configs with
  | some alt => some { alt }
  | none =>
    match Frontier.altsOf configs with
    | [] => none
    | [alt] => some { alt }
    | alt :: alts =>
      match indistinguishable configs with
      | least :: others => some { alt := least, conflict := least :: others }
      | [] => if afterEnd then some { alt, conflict := alt :: alts } else none

end AdaptiveLL
