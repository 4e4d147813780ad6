import HttpEcho.Log.Basic
import HttpEcho.Text.Caseless
import HttpEcho.Text.Split

/-!
# Log filters

A filter is a list of directives with commas between them. A directive is a level, a target, or a target
and a level with `=` between them. Of the directives whose target an event's source starts with, the one
with the longest target decides.
-/

namespace HttpEcho.Log

/-- `selects` is false where a directive names a span or a field: no event of this program has one. -/
structure Directive where
  target : Option Text
  /-- Nothing passes without a level. -/
  level : Option Level
  selects : Bool
  deriving DecidableEq, Repr

inductive FilterError
  | invalidDirective
  | invalidLevel
  deriving DecidableEq, Repr

def FilterError.message : FilterError → Text
  | invalidDirective => "invalid filter directive".toList
  | invalidLevel =>
    ("error parsing level filter: expected one of \"off\", \"error\", \"warn\", \"info\", \"debug\", " ++
      "\"trace\", or a number 0-5").toList

/-- Level names in any case, and their numbers. -/
def levels : List (Text × Option Level) :=
  [("off".toList, none), ("error".toList, some .error), ("warn".toList, some .warn),
    ("info".toList, some .info), ("debug".toList, some .debug), ("trace".toList, some .trace)]

def levelNumber? (t : Text) : Option (Option Level) :=
  (Text.readSize? t).bind fun n => levels[n]?.map Prod.snd

/-- A level may be left out behind `=`, and then all levels pass. -/
def readLevel? (t : Text) : Option (Option Level) :=
  levelNumber? t <|> (levels.find? fun entry => decide (Text.SameName entry.1 t)).map Prod.snd

/-- The ranges of punctuation, symbols and private characters above ASCII. -/
def symbolRanges : List (Nat × Nat) :=
  [(0x80, 0xA9), (0xAB, 0xB1), (0xB4, 0xB4), (0xB6, 0xB8), (0xBB, 0xBB), (0xBF, 0xBF), (0xD7, 0xD7),
    (0xF7, 0xF7), (0x2000, 0x206F), (0x20A0, 0x20CF), (0x2190, 0x245F), (0x2500, 0x2775),
    (0x2794, 0x2BFF), (0x3000, 0x3004), (0xE000, 0xF8FF), (0xFFF0, 0xFFFF), (0x1F000, 0x1F0FF),
    (0x1F200, 0x1FBEF)]

/-- Letters, digits, hyphen, colon and underscore may start a directive. -/
def startsDirective (c : Char) : Bool :=
  c.isAlphanum || c = '-' || c = ':' || c = '_' ||
    (0x80 ≤ c.toNat && symbolRanges.all fun (first, last) => c.toNat < first || last < c.toNat)

/-- What follows the field list's opening brace, up to the closing brackets. -/
def afterFields? (t : Text) : Option Text :=
  match Text.cut? '\x7d' t with
  | some (_ :: _, ']' :: rest) => some rest
  | _ => none

/-- What follows a span's opening bracket, up to the closing one. -/
def afterSpan? (t : Text) : Option Text :=
  match t.dropWhile fun c => decide (c ≠ ']' ∧ c ≠ '\x7b') with
  | ']' :: rest => some rest
  | '\x7b' :: rest => afterFields? rest
  | _ => none

def readDirectiveLevel (t : Text) : Except FilterError (Option Level) :=
  if t = [] then .ok (some .trace)
  else match readLevel? t with
    | some level => .ok level
    | none => .error .invalidLevel

/-- The level behind a span, which may be left out together with its `=`. -/
def readSpanned (target : Option Text) (t : Text) : Except FilterError Directive :=
  match afterSpan? t with
  | some [] => .ok ⟨target, some .trace, false⟩
  | some ('=' :: level) => (readDirectiveLevel level).map fun level => ⟨target, level, false⟩
  | _ => .error .invalidDirective

/-- White space around a directive counts when it is cut: positions are those of the trimmed text. -/
def readDirective (t : Text) : Except FilterError Directive :=
  match Text.trim t with
  | [] => .error .invalidDirective
  | '[' :: rest => readSpanned none rest
  | c :: rest =>
    if ¬startsDirective c then .error .invalidDirective
    else
      let position := 1 + (rest.takeWhile fun c => decide (c ≠ '=' ∧ c ≠ '[')).length
      match (c :: rest).drop position with
      | [] =>
        match readLevel? t with
        | some level => .ok ⟨none, level, true⟩
        | none => .ok ⟨some t, some .trace, true⟩
      | '=' :: _ =>
        (readDirectiveLevel (t.drop (position + 1))).map fun level => ⟨some (t.take position), level, true⟩
      | _ :: rest => readSpanned (some (t.take position)) rest

abbrev Filter := List Directive

namespace Filter

def ofText (t : Text) : Except FilterError Filter :=
  ((t.splitOn ',').filter (· ≠ [])).mapM readDirective

/-- A target outranks none, and a longer one a shorter one. -/
def rank (d : Directive) : Nat := d.target.elim 0 fun target => target.length + 1

def applies (path : Text) (d : Directive) : Bool :=
  d.selects && d.target.elim true fun target => target.isPrefixOf path

/-- Of equally good directives the last one. -/
def deciding? (filter : Filter) (path : Text) : Option Directive :=
  (filter.filter (applies path)).foldl (fun best d =>
    match best with
    | none => some d
    | some b => if rank b ≤ rank d then some d else some b) none

/-- A filter without directives passes errors only. -/
def level? (filter : Filter) (path : Text) : Option Level :=
  if filter = [] then some .error else (filter.deciding? path).bind Directive.level

def passes (filter : Filter) (e : Event) : Bool :=
  match filter.level? e.source.path with
  | none => false
  | some level => e.level.detail ≤ level.detail

/-- The first filter wins if it is given and valid. -/
def choose (first : Option Text) (second : Text) : Except FilterError Filter :=
  match first.map ofText with
  | some (.ok filter) => .ok filter
  | _ => ofText second

end Filter

end HttpEcho.Log
