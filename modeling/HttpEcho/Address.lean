import HttpEcho.Text.Numeral

/-!
# Addresses of clients
-/

namespace HttpEcho

inductive Ip
  | v4 (a b c d : UInt8)
  | v6 (groups : Vector UInt16 8)
  deriving DecidableEq, Repr

namespace Ip

def dotted (a b c d : Nat) : Text :=
  Text.ofNat a ++ '.' :: Text.ofNat b ++ '.' :: Text.ofNat c ++ '.' :: Text.ofNat d

/-- Lower-case hexadecimal without leading zeros, a colon between two groups. -/
def groupsText (groups : List UInt16) : Text :=
  [':'].intercalate (groups.map fun g => Nat.toDigits 16 g.toNat)

def zerosAt (groups : List UInt16) (i : Nat) : Nat := ((groups.drop i).takeWhile (· = 0)).length

/-- Start and length of the longest run of zero groups, of equally long ones the first. -/
def longestZeros (groups : List UInt16) : Nat × Nat :=
  (List.range groups.length).foldl (fun best i =>
    if best.2 < zerosAt groups i then (i, zerosAt groups i) else best) (0, 0)

/-- An IPv4 address in the last two groups is shown as such behind `::ffff:`. Otherwise the longest run
of two or more zero groups is left out. -/
def v6Text (groups : List UInt16) : Text :=
  match groups with
  | [0, 0, 0, 0, 0, 0xFFFF, x, y] =>
    "::ffff:".toList ++
      dotted (x.toNat / 256) (x.toNat % 256) (y.toNat / 256) (y.toNat % 256)
  | _ =>
    let (start, count) := longestZeros groups
    if count < 2 then groupsText groups
    else groupsText (groups.take start) ++ "::".toList ++ groupsText (groups.drop (start + count))

def text : Ip → Text
  | v4 a b c d => dotted a.toNat b.toNat c.toNat d.toNat
  | v6 groups => v6Text groups.toList

end Ip

/-- One end of a connection. The scope is that of an IPv6 address, and 0 if it has none. -/
structure Endpoint where
  ip : Ip
  port : UInt16
  scope : UInt32
  deriving DecidableEq, Repr

namespace Endpoint

def clientText (e : Endpoint) : Text := e.ip.text ++ ':' :: Text.ofNat e.port.toNat

/-- Brackets keep the colons of an IPv6 address apart from the port. -/
def text (e : Endpoint) : Text :=
  match e.ip with
  | .v4 .. => e.clientText
  | .v6 _ =>
    let scope := if e.scope = 0 then [] else '%' :: Text.ofNat e.scope.toNat
    '[' :: e.ip.text ++ scope ++ ']' :: ':' :: Text.ofNat e.port.toNat

end Endpoint

def unknownClient : Text := "unknown".toList

end HttpEcho
