import HttpEcho.Json.Lexeme
import HttpEcho.Json.Quoted

/-!
# Reading a document

The grammar is a machine over lexemes. Its state holds the containers that are still open, the
innermost first, each with its parts in reverse order.
-/

namespace HttpEcho.Json

/-- A container waiting for the value of its next part. -/
inductive Frame
  | items (done : List Json)
  | members (done : List (Text × Json)) (key : Text)

inductive State
  | value (outer : List Frame)
  /-- The first item of an array, or its end. -/
  | firstItem (outer : List Frame)
  /-- A key, or the end of an object without members. -/
  | key (done : List (Text × Json)) (outer : List Frame)
  | colon (done : List (Text × Json)) (key : Text) (outer : List Frame)
  /-- What may follow a complete value. -/
  | after (v : Json) (outer : List Frame)

namespace State

def enter? (outer : List Frame) (state : State) : Option State :=
  if outer.length < maxDepth then some state else none

def readValue? (outer : List Frame) : Lexeme → Option State
  | .word t => (ofWord? t).map fun v => after v outer
  | .quoted raw => (unescape? raw).map fun s => after (.str s) outer
  | .mark '[' => enter? outer (firstItem outer)
  | .mark '\x7b' => enter? outer (key [] outer)
  | .mark _ => none

def readKey? (done : List (Text × Json)) (outer : List Frame) : Lexeme → Option State
  | .quoted raw => (unescape? raw).map fun k => colon done k outer
  | _ => none

/-- A repeated key has its last value in the place of the first. -/
def closeObject (done : List (Text × Json)) : Json := .obj (Entries.ofList done.reverse)

def step? : State → Lexeme → Option State
  | value outer, l => readValue? outer l
  | firstItem outer, l =>
    if l = .mark ']' then some (after (.arr []) outer) else readValue? (.items [] :: outer) l
  | key done outer, l =>
    if l = .mark '\x7d' ∧ done.isEmpty then some (after (closeObject []) outer)
    else readKey? done outer l
  | colon done k outer, l =>
    if l = .mark ':' then some (value (.members done k :: outer)) else none
  | after v (.items done :: outer), l =>
    if l = .mark ',' then some (value (.items (v :: done) :: outer))
    else if l = .mark ']' then some (after (.arr (v :: done).reverse) outer)
    else none
  | after v (.members done k :: outer), l =>
    if l = .mark ',' then some (key ((k, v) :: done) outer)
    else if l = .mark '\x7d' then some (after (closeObject ((k, v) :: done)) outer)
    else none
  | after _ [], _ => none

def run? (state : State) (input : List Lexeme) : Option State := input.foldlM step? state

def result? : State → Option Json
  | after v [] => some v
  | _ => none

end State

def ofText? (t : Text) : Option Json := do
  let input ← lexemes? t
  let state ← (State.value []).run? input
  state.result?

end HttpEcho.Json
