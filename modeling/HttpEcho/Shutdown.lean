/-!
# Requests to stop

Any number of handles share a flag. A clone shares the flag of the handle it was made from, and a flag
once set stays set.
-/

namespace HttpEcho

/-- All handles with their flags: `flagOf` gives the flag of each handle, `flags` the value of each flag. -/
structure Handles where
  flagOf : List Nat
  flags : List Bool
  deriving DecidableEq, Repr

namespace Handles

inductive Step
  | new
  | clone (handle : Nat)
  | trigger (handle : Nat)
  deriving DecidableEq, Repr

def single : Handles := ⟨[0], [false]⟩

def isTriggered (h : Handles) (handle : Nat) : Bool :=
  match h.flagOf[handle]? with
  | none => false
  | some flag => h.flags.getD flag false

/-- Steps on handles that do not exist change nothing. -/
def step (h : Handles) : Step → Handles
  | .new => ⟨h.flagOf ++ [h.flags.length], h.flags ++ [false]⟩
  | .clone handle =>
    match h.flagOf[handle]? with
    | none => h
    | some flag => { h with flagOf := h.flagOf ++ [flag] }
  | .trigger handle =>
    match h.flagOf[handle]? with
    | none => h
    | some flag => { h with flags := h.flags.set flag true }

def run (h : Handles) (steps : List Step) : Handles := steps.foldl step h

def states (h : Handles) : List Bool := (List.range h.flagOf.length).map h.isTriggered

end Handles

end HttpEcho
