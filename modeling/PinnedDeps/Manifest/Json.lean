import PinnedDeps.Reference

/-! References as JSON: an array of objects, indented by two blanks a level, with `location` before
`revision`. Only quotes, backslashes and control characters are escaped. -/

namespace PinnedDeps.Json

/-- A character inside a JSON string. -/
def escape (c : Char) : List Char :=
  match c with
  | '"' => ['\\', '"']
  | '\\' => ['\\', '\\']
  | '\x08' => ['\\', 'b']
  | '\x0c' => ['\\', 'f']
  | '\n' => ['\\', 'n']
  | '\r' => ['\\', 'r']
  | '\t' => ['\\', 't']
  | c =>
    if c.toNat < 0x20 then
      ['\\', 'u', '0', '0', Nat.digitChar (c.toNat / 16), Nat.digitChar (c.toNat % 16)]
    else [c]

def quote (text : String) : String :=
  "\"" ++ String.ofList (text.toList.flatMap escape) ++ "\""

def object (r : Reference) : String :=
  "  \x7b\n    \"location\": " ++ quote r.location ++ ",\n    \"revision\": " ++ quote r.revision
    ++ "\n  \x7d"

def array : List Reference → String
  | [] => "[]"
  | references => "[\n" ++ ",\n".intercalate (references.map object) ++ "\n]"

end PinnedDeps.Json
