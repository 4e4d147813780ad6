import HttpEcho.Request.Head
import HttpEcho.Request.Length

/-!
# Reading a request from a connection

The head is read up to its blank line or until it is too long. If it announces a length, the body is
read as far as that.
-/

namespace HttpEcho

def readChunk : Nat := 8192

inductive ReadEvent
  | piece (bytes : Bytes)
  | interrupted
  /-- Nothing came for a while. The flag says whether the server is to stop. -/
  | timedOut (stopping : Bool)
  | closed
  deriving DecidableEq, Repr

inductive Reader
  /-- More is needed. Once the head is complete, `wanted` is the length to wait for. -/
  | reading (buffer : Bytes) (wanted : Option Nat)
  | finished (raw : Bytes)
  | abandoned
  deriving DecidableEq, Repr

namespace Reader

def start : Reader := reading [] none

def untilLength (buffer : Bytes) (wanted : Nat) : Reader :=
  if buffer.length < wanted then reading buffer (some wanted) else finished buffer

def assess (buffer : Bytes) : Option Nat → Reader
  | some wanted => untilLength buffer wanted
  | none =>
    match findHeadEnd buffer with
    | none => if maxHeadBytes ≤ buffer.length then finished buffer else reading buffer none
    | some e =>
      match contentLengthHint (buffer.take e.bodyStart) with
      | none => finished buffer
      | some n => untilLength buffer (min (e.bodyStart + n) Text.maxSize)

/-- A reader that needs no more takes no notice of what comes. -/
def step : Reader → ReadEvent → Reader
  | reading buffer wanted, .piece bytes => assess (buffer ++ bytes) wanted
  | reading buffer _, .closed => finished buffer
  | reading _ _, .timedOut true => abandoned
  | reader, _ => reader

def run (events : List ReadEvent) : Reader := events.foldl step start

end Reader

end HttpEcho
