import HttpEcho.Entries
import HttpEcho.Text.Caseless

/-!
# Header fields

Names are compared without regard to ASCII case and keep the spelling in which they came.
-/

namespace HttpEcho

abbrev Headers := Entries Text Text

def contentLengthName : Text := "Content-Length".toList

namespace Headers

def first? (headers : Headers) (name : Text) : Option Text :=
  Entries.find? (fun n => decide (Text.SameName n name)) headers

def last? (headers : Headers) (name : Text) : Option Text := first? headers.reverse name

/-- Gives the field of that name a new value. It keeps its place and spelling, and a new one goes to
the end. -/
def set (headers : Headers) (name value : Text) : Headers :=
  Entries.upsert (fun n => decide (Text.SameName n name)) (fun _ => value) (name, value) headers

end Headers

end HttpEcho
