import HttpEcho.Text.Basic

/-!
# The end of a request's head

A head ends at a blank line: two line endings in a row, both CR LF or both LF.
-/

namespace HttpEcho

/-- The most bytes that are searched for the end of a head. -/
def maxHeadBytes : Nat := 64 * 1024

/-- Where a head stops and where the body after it starts. -/
structure HeadEnd where
  headLength : Nat
  bodyStart : Nat
  deriving DecidableEq, Repr

/-- The length of the blank line at the front, if there is one. -/
def blankLineLength? : Bytes → Option Nat
  | 0x0D :: 0x0A :: 0x0D :: 0x0A :: _ => some 4
  | 0x0A :: 0x0A :: _ => some 2
  | _ => none

def findHeadEnd : Bytes → Option HeadEnd
  | [] => none
  | b :: rest =>
    match blankLineLength? (b :: rest) with
    | some n => some ⟨0, n⟩
    | none => (findHeadEnd rest).map fun e => ⟨e.headLength + 1, e.bodyStart + 1⟩

end HttpEcho
