import HttpEcho.Json.Quoted
import HttpEcho.Json.Shortest
import HttpEcho.Json.Value

/-!
# Writing a document
-/

namespace HttpEcho.Json

/-- Where white space goes in a document. -/
inductive Layout
  | compact
  /-- Each part of a container on a line of its own, indented by two spaces a level. -/
  | pretty
  deriving DecidableEq, Repr

namespace Layout

def newline : Layout → Nat → Text
  | compact, _ => []
  | pretty, level => '\n' :: List.replicate (2 * level) ' '

def colon : Layout → Text
  | compact => [':']
  | pretty => [':', ' ']

end Layout

def quote (t : Text) : Text := '"' :: escape t ++ ['"']

mutual

/-- The text of a value whose parts are at `level`. Empty containers stay on one line. -/
def render (layout : Layout) (level : Nat) : Json → Text
  | .null => "null".toList
  | .bool true => "true".toList
  | .bool false => "false".toList
  | .int n => Text.ofInt n
  | .float x => floatText x
  | .str s => quote s
  | .arr [] => ['[', ']']
  | .arr (v :: vs) =>
    '[' :: layout.newline (level + 1) ++ render layout (level + 1) v ++ renderItems layout level vs
  | .obj [] => ['\x7b', '\x7d']
  | .obj ((k, v) :: ms) =>
    '\x7b' :: layout.newline (level + 1) ++ quote k ++ layout.colon ++ render layout (level + 1) v ++
      renderMembers layout level ms

/-- The items after the first one, and the end of the array. -/
def renderItems (layout : Layout) (level : Nat) : List Json → Text
  | [] => layout.newline level ++ [']']
  | v :: vs =>
    ',' :: layout.newline (level + 1) ++ render layout (level + 1) v ++ renderItems layout level vs

/-- The members after the first one, and the end of the object. -/
def renderMembers (layout : Layout) (level : Nat) : List (Text × Json) → Text
  | [] => layout.newline level ++ ['\x7d']
  | (k, v) :: ms =>
    ',' :: layout.newline (level + 1) ++ quote k ++ layout.colon ++ render layout (level + 1) v ++
      renderMembers layout level ms

end

def compact (v : Json) : Text := render .compact 0 v

def pretty (v : Json) : Text := render .pretty 0 v

end HttpEcho.Json
