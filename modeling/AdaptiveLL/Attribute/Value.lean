import AdaptiveLL.Fault

/-!
# Attribute values

A `Value` is what an attribute of a rule invocation holds: nothing, a truth
value, a signed 64-bit integer, a text, or a list of values. Its written form is
`Value.text`; using a value as one of a kind it does not have is the fault
`wrongKind`.
-/

namespace AdaptiveLL

/-- What an attribute holds. -/
inductive Value
  | nil
  | bool (b : Bool)
  | int (n : Int64)
  | string (s : String)
  | list (items : List Value)

namespace Value

instance : Inhabited Value := ⟨nil⟩

mutual

/-- Two values are equal if they have one kind and equal contents. -/
def beq : Value → Value → Bool
  | .nil, .nil => true
  | .bool a, .bool b => a == b
  | .int a, .int b => a == b
  | .string a, .string b => a == b
  | .list a, .list b => beqAll a b
  | _, _ => false

/-- Two lists are equal if they are so element by element. -/
def beqAll : List Value → List Value → Bool
  | [], [] => true
  | a :: l, b :: m => beq a b && beqAll l m
  | _, _ => false

end

instance : BEq Value := ⟨beq⟩

mutual

/-- Comparing values decides their equality. -/
theorem beq_iff : (a b : Value) → (beq a b = true ↔ a = b)
  | .nil, b => by cases b <;> simp [beq]
  | .bool _, b => by cases b <;> simp [beq]
  | .int _, b => by cases b <;> simp [beq]
  | .string _, b => by cases b <;> simp [beq]
  | .list l, b => by
    cases b with
    | list m => simpa [beq] using beqAll_iff l m
    | _ => simp [beq]

/-- Comparing lists of values decides their equality. -/
theorem beqAll_iff : (l m : List Value) → (beqAll l m = true ↔ l = m)
  | [], m => by cases m <;> simp [beqAll]
  | a :: l, m => by
    cases m with
    | nil => simp [beqAll]
    | cons b m => simp [beqAll, beq_iff a b, beqAll_iff l m]

end

instance : LawfulBEq Value where
  eq_of_beq h := (beq_iff _ _).1 h
  rfl := (beq_iff _ _).2 rfl

mutual

/-- The written form of a value; texts stand without quotes. -/
def text : Value → String
  | .nil => "nil"
  | .bool b => if b then "true" else "false"
  | .int n => toString n
  | .string s => s
  | .list items => "[" ++ texts items ++ "]"

/-- The written forms of some values, separated by commas. -/
def texts : List Value → String
  | [] => ""
  | [v] => text v
  | v :: w :: rest => text v ++ ", " ++ texts (w :: rest)

end

/-- The truth value that a value is. -/
def toBool? : Value → Except Fault Bool
  | .bool b => .ok b
  | _ => .error .wrongKind

/-- The integer that a value is. -/
def toInt? : Value → Except Fault Int64
  | .int n => .ok n
  | _ => .error .wrongKind

/-- The text that a value is. -/
def toText? : Value → Except Fault String
  | .string s => .ok s
  | _ => .error .wrongKind

/-- The elements of the list that a value is. -/
def toItems? : Value → Except Fault (List Value)
  | .list items => .ok items
  | _ => .error .wrongKind

/-- The list with one more element at its end. -/
def push (list item : Value) : Except Fault Value :=
  list.toItems?.map fun items => .list (items ++ [item])

end Value

end AdaptiveLL
