import HttpEcho.Entries
import HttpEcho.Text.Percent
import HttpEcho.Text.Split

/-!
# Request targets

A target names a path and query parameters. The query is cut off before a scheme is looked for, so a
`://` in a parameter belongs to its value.
-/

namespace HttpEcho

abbrev QueryParams := Entries Text (List Text)

/-- The pairs of a query string. Those without a value are left out. -/
def queryPairs (query : Text) : List (Text × Text) :=
  (query.splitOn '&').filterMap fun segment =>
    match Text.cut? '=' segment with
    | some (_, []) | none => none
    | some (key, value) => some (Text.formDecode key, Text.formDecode value)

def readQuery (query : Text) : QueryParams := Entries.group (queryPairs query)

/-- A letter, then letters, digits, `+`, `-` or `.`. -/
def isScheme : Text → Bool
  | [] => false
  | c :: rest => c.isAlpha && rest.all fun c => c.isAlphanum || c = '+' || c = '-' || c = '.'

/-- Drops `scheme://authority` from a path in absolute form. -/
def stripAuthority (path : Text) : Text :=
  if path.head? = some '/' then path
  else
    match Text.cutAt? "://".toList path with
    | none => path
    | some (scheme, rest) =>
      if isScheme scheme then
        match rest.dropWhile (· ≠ '/') with
        | [] => ['/']
        | path => path
      else path

structure Target where
  path : Text
  query : QueryParams

namespace Target

def ofText (target : Text) : Target :=
  let target := target.takeWhile (· ≠ '#')
  let (path, query) := (Text.cut? '?' target).getD (target, [])
  ⟨Text.percentDecode (stripAuthority path), readQuery query⟩

end Target

end HttpEcho
