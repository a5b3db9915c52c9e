import PinnedDeps.Dict

/-! Values of the DEPS dialect, the names of their kinds, and the form in which they are shown:
strings in single quotes without any escaping, mappings in the order of their keys. -/

namespace PinnedDeps

inductive Value where
  | str (text : String)
  | int (value : Int)
  | bool (value : Bool)
  | none
  | list (items : List Value)
  | map (entries : List (String × Value))
  deriving Repr

namespace Value

/-- The kinds of values, as far as a complaint tells them apart. -/
inductive Kind where
  | str | int | bool | none | list | map
  deriving DecidableEq, Repr

def Kind.name : Kind → String
  | .str => "str"
  | .int => "int"
  | .bool => "bool"
  | .none => "NoneType"
  | .list => "list"
  | .map => "dict"

def kind : Value → Kind
  | .str _ => .str
  | .int _ => .int
  | .bool _ => .bool
  | .none => .none
  | .list _ => .list
  | .map _ => .map

def text? : Value → Option String
  | .str text => some text
  | _ => Option.none

def entries? : Value → Option (Dict Value)
  | .map entries => some entries
  | _ => Option.none

def quoted (text : String) : String := "'" ++ text ++ "'"

mutual

def display : Value → String
  | .str text => quoted text
  | .int value => toString value
  | .bool true => "True"
  | .bool false => "False"
  | .none => "None"
  | .list items => "[" ++ ", ".intercalate (displayItems items) ++ "]"
  | .map entries => "\x7b" ++ ", ".intercalate (displayEntries entries) ++ "\x7d"

def displayItems : List Value → List String
  | [] => []
  | item :: rest => item.display :: displayItems rest

def displayEntries : List (String × Value) → List String
  | [] => []
  | (key, value) :: rest => (quoted key ++ ": " ++ value.display) :: displayEntries rest

end

end Value

end PinnedDeps
