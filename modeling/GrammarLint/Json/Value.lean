import GrammarLint.Text.Loose

namespace GrammarLint.Json

open Text (Loose)

/-- A JSON value. Whole numbers without point and exponent are integers, the others are floating
point numbers. Texts are loose, since an escape can name half of a pair. The fields of an object
keep their order. -/
inductive Value where
  | null
  | bool (b : Bool)
  | int (n : Int)
  | float (x : Float)
  | str (s : Loose)
  | arr (items : List Value)
  | obj (fields : List (Loose × Value))
deriving Inhabited

namespace Value

def lookUp (key : Loose) (fields : List (Loose × Value)) : Option Value :=
  (fields.find? (·.1 == key)).map (·.2)

/-- Sets a key, which keeps its place if it is there already. -/
def insert (key : Loose) (value : Value) : List (Loose × Value) → List (Loose × Value)
  | [] => [(key, value)]
  | field :: rest =>
    if field.1 == key then (key, value) :: rest else field :: insert key value rest

/-- Whether a value counts as true where a truth value is asked for. -/
def truthy : Value → Bool
  | null => false
  | bool b => b
  | int n => n != 0
  | float x => x != 0
  | str s => !s.isEmpty
  | arr items => !items.isEmpty
  | obj fields => !fields.isEmpty

def kindName : Value → String
  | null => "NoneType"
  | bool _ => "bool"
  | int _ => "int"
  | float _ => "float"
  | str _ => "str"
  | arr _ => "list"
  | obj _ => "dict"

def isStr : Value → Bool
  | str _ => true
  | _ => false

def string? : Value → Option String
  | str s => s.string?
  | _ => none

end Value

end GrammarLint.Json
