import AdaptiveLL.Ascending
import AdaptiveLL.Attribute.Value

/-!
# Scopes

A `Scope` binds names to values, in the order of the names: the locals or the
returns of one rule invocation. Setting an attribute creates it (`Scope.set`),
while reading and changing it (`Scope.get`, `Scope.modify`) need it to exist.
-/

namespace AdaptiveLL

/-- Attributes by name, in the order of the names. -/
structure Scope where
  entries : List (String × Value) := []

namespace Scope

instance : Inhabited Scope := ⟨{}⟩

/-- The value of an attribute, if there is one of this name. -/
def get? (s : Scope) (name : String) : Option Value :=
  s.entries.lookup name

/-- Whether there is an attribute of this name. -/
def contains (s : Scope) (name : String) : Bool :=
  (s.get? name).isSome

/-- Binds an attribute, new or not. -/
def set (s : Scope) (name : String) (v : Value) : Scope :=
  { entries := Ascending.insertKey name v s.entries }

/-- The value of an attribute, which has to exist. -/
def get (s : Scope) (name : String) : Except Fault Value :=
  match s.get? name with
  | some v => .ok v
  | none => .error (.unknownAttribute name)

/-- Changes an attribute, which has to exist. -/
def modify (s : Scope) (name : String) (f : Value → Except Fault Value) : Except Fault Scope := do
  let v ← s.get name
  return s.set name (← f v)

/-- Replaces the value of an attribute, which has to exist. -/
def assign (s : Scope) (name : String) (v : Value) : Except Fault Scope :=
  s.modify name fun _ => .ok v

/-- Appends to an attribute, which has to exist and to hold a list. -/
def push (s : Scope) (name : String) (item : Value) : Except Fault Scope :=
  s.modify name fun list => list.push item

/-- The names of the attributes, ascending. -/
def names (s : Scope) : List String :=
  s.entries.map (·.1)

/-- The number of attributes. -/
def size (s : Scope) : Nat :=
  s.entries.length

/-- Whether there is no attribute. -/
def isEmpty (s : Scope) : Bool :=
  s.entries.isEmpty

/-- An attribute has the value it was set to last. -/
theorem get?_set_self (s : Scope) (name : String) (v : Value) : (s.set name v).get? name = some v :=
  Ascending.lookup_insertKey_self name v s.entries

/-- Setting an attribute leaves the others as they were. -/
theorem get?_set_of_ne (s : Scope) {name other : String} (h : other ≠ name) (v : Value) :
    (s.set name v).get? other = s.get? other :=
  Ascending.lookup_insertKey_of_ne h v s.entries

end Scope

end AdaptiveLL
