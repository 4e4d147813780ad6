import HttpEcho.Echo.Record
import HttpEcho.Proofs.Numeral
import HttpEcho.Proofs.Parsing
import Mathlib.Data.List.Induction
import Mathlib.Data.List.TakeWhile

/-!
# Telling clients apart

The record writes a client as its address, a colon and its port, also where the address is full of colons
itself. A port has none, so the last colon is the one in front of it. The address is read back from what
stands before: two colons meet only where zeros are left out, and as there are eight groups, the written
ones tell how many zeros these are.
-/

namespace HttpEcho

namespace Text

variable {front : Text} {n : Nat}

/-! ### Cutting -/

/-- The parts before and after the last `sep`, which belongs to neither. -/
def cutLast? (sep : Char) (t : Text) : Option (Text × Text) :=
  (cut? sep t.reverse).map fun (after, before) => (before.reverse, after.reverse)

theorem cutLast?_append {sep : Char} {after : Text} (hafter : sep ∉ after) (before : Text) :
    cutLast? sep (before ++ sep :: after) = some (before, after) := by
  have hreverse : (before ++ sep :: after).reverse = after.reverse ++ sep :: before.reverse := by simp
  have hcut := cut?_append (List.mem_reverse.not.mpr hafter) before.reverse
  simp only [cutLast?, hreverse, hcut, Option.map_some, List.reverse_reverse]

/-- Two colons are cut out if no two meet further in front, be it with the first of them. -/
theorem cutAt?_gap (hfront : ¬[':', ':'] <:+: front ++ [':']) (back : Text) :
    cutAt? [':', ':'] (front ++ [':', ':'] ++ back) = some (front, back) := by
  refine cutAt?_append fun before after h => ?_
  by_contra hlt
  have hearly : before ++ [':', ':'] <+: front ++ [':'] := by
    refine List.prefix_of_prefix_length_le ⟨after, h.symm⟩ ⟨':' :: back, by simp⟩ ?_
    simp only [List.length_append, List.length_cons, List.length_nil]
    omega
  exact hfront ((List.suffix_append before _).isInfix.trans hearly.isInfix)

/-! ### Hexadecimal numbers -/

/-- The number that hexadecimal digits write. -/
def readHex? (t : Text) : Option Nat :=
  t.foldlM (fun n c => (hexDigit? c).map (16 * n + ·)) 0

theorem readHex?_concat (t : Text) (c : Char) :
    readHex? (t ++ [c]) = (readHex? t).bind fun n => (hexDigit? c).map (16 * n + ·) := by
  simp [readHex?, List.foldlM_append]

theorem hexDigit?_digitChar : ∀ d < 16, hexDigit? d.digitChar = some d := by decide

theorem readHex?_toDigits (n : Nat) : readHex? (Nat.toDigits 16 n) = some n := by
  induction n using Nat.strongRecOn with
  | _ n ih =>
    rcases Nat.lt_or_ge n 16 with hlow | hhigh
    · rw [Nat.toDigits_of_lt_base hlow]
      simp [readHex?, hexDigit?_digitChar n hlow]
    · have hfront := ih (n / 16) (by omega)
      have hlast := hexDigit?_digitChar (n % 16) (Nat.mod_lt n (by decide))
      calc readHex? (Nat.toDigits 16 n)
        _ = readHex? (Nat.toDigits 16 (n / 16) ++ [(n % 16).digitChar]) := by
            rw [Nat.toDigits_of_base_le (by decide) hhigh]
        _ = some (16 * (n / 16) + n % 16) := by
            rw [readHex?_concat, hfront, hlast, Option.bind_some, Option.map_some]
        _ = some n := by rw [Nat.div_add_mod]

theorem isSome_hexDigit?_of_readHex? {t : Text} (h : readHex? t = some n) :
    ∀ c ∈ t, (hexDigit? c).isSome := by
  induction t using List.reverseRecOn generalizing n with
  | nil => exact fun c hc => absurd hc List.not_mem_nil
  | append_singleton t x ih =>
    rw [readHex?_concat, Option.bind_eq_some_iff] at h
    obtain ⟨m, hfront, hlast⟩ := h
    intro c hc
    rcases List.mem_append.mp hc with hc | hc
    · exact ih hfront c hc
    · rw [List.mem_singleton.mp hc, ← Option.isSome_map, hlast]
      rfl

theorem notMem_toDigits {c : Char} (hc : hexDigit? c = none) : c ∉ Nat.toDigits 16 n := by
  intro hmem
  have hdigit := isSome_hexDigit?_of_readHex? (readHex?_toDigits n) c hmem
  rw [hc] at hdigit
  cases hdigit

end Text

namespace Ip

/-! ### Reading addresses -/

/-- Numbers of one byte each with a point between two. -/
def readBytes? (t : Text) : Option (List Nat) :=
  (t.splitOn '.').mapM fun part => (Text.readNat 255 part).toOption

def pairBytes : List Nat → List UInt16
  | a :: b :: rest => .ofNat (256 * a + b) :: pairBytes rest
  | _ => []

/-- What stands between two colons: a group, or bytes, of which two make one. -/
def readPart? (t : Text) : Option (List UInt16) :=
  if '.' ∈ t then (readBytes? t).map pairBytes else (Text.readHex? t).map fun n => [.ofNat n]

def readParts? (t : Text) : Option (List UInt16) :=
  if t = [] then some [] else ((t.splitOn ':').mapM readPart?).map List.flatten

/-- Two colons that meet stand for as many zeros as are missing. -/
def readGroups? (t : Text) : Option (List UInt16) :=
  match Text.cutAt? [':', ':'] t with
  | none => readParts? t
  | some (front, back) => do
    let front ← readParts? front
    let back ← readParts? back
    return front ++ List.replicate (8 - front.length - back.length) 0 ++ back

/-- The address with the text `t`. What is no text of an address may be read, too. -/
def ofText? (t : Text) : Option Ip :=
  if ':' ∈ t then do
    let groups ← readGroups? t
    if h : groups.length = 8 then return .v6 ⟨groups.toArray, h⟩ else none
  else
    match readBytes? t with
    | some [a, b, c, d] => some (.v4 (.ofNat a) (.ofNat b) (.ofNat c) (.ofNat d))
    | _ => none

/-! ### The parts of an address -/

variable {a b c d : Nat} {parts : List Text} {groups : List UInt16}

theorem dotted_eq (a b c d : Nat) :
    dotted a b c d = ['.'].intercalate [Text.ofNat a, Text.ofNat b, Text.ofNat c, Text.ofNat d] := by
  simp [dotted]

theorem notMem_dotted {x : Char} (hdigit : ¬x.isDigit) (hpoint : x ≠ '.') : x ∉ dotted a b c d := by
  have hnumber : ∀ n, x ∉ Text.ofNat n := fun n => (Text.isNumeral_ofNat n).notMem hdigit
  simp [dotted, hnumber, hpoint]

theorem readBytes?_dotted (ha : a ≤ 255) (hb : b ≤ 255) (hc : c ≤ 255) (hd : d ≤ 255) :
    readBytes? (dotted a b c d) = some [a, b, c, d] := by
  have hnumber : ∀ n, '.' ∉ Text.ofNat n := fun n => (Text.isNumeral_ofNat n).notMem (by decide)
  rw [readBytes?, dotted_eq, List.splitOn_intercalate '.' (by simp [hnumber]) (by simp)]
  simp [Text.toOption_readNat_ofNat, ha, hb, hc, hd]

theorem readPart?_dotted (ha : a ≤ 255) (hb : b ≤ 255) (hc : c ≤ 255) (hd : d ≤ 255) :
    readPart? (dotted a b c d) = some [.ofNat (256 * a + b), .ofNat (256 * c + d)] := by
  rw [readPart?, if_pos (by simp [dotted]), readBytes?_dotted ha hb hc hd]
  rfl

theorem readPart?_mapped (x y : UInt16) :
    readPart? (dotted (x.toNat / 256) (x.toNat % 256) (y.toNat / 256) (y.toNat % 256)) =
      some [x, y] := by
  have hx := x.toNat_lt
  have hy := y.toNat_lt
  rw [readPart?_dotted (by omega) (by omega) (by omega) (by omega), Nat.div_add_mod, Nat.div_add_mod,
    UInt16.ofNat_toNat, UInt16.ofNat_toNat]

theorem readPart?_toDigits (g : UInt16) : readPart? (Nat.toDigits 16 g.toNat) = some [g] := by
  rw [readPart?, if_neg (Text.notMem_toDigits (by decide)), Text.readHex?_toDigits]
  simp

/-- What can stand between two colons. -/
structure IsPart (part : Text) : Prop where
  ne_nil : part ≠ []
  colon_notMem : ':' ∉ part

theorem isPart_toDigits (n : Nat) : IsPart (Nat.toDigits 16 n) :=
  ⟨Nat.toDigits_ne_nil, Text.notMem_toDigits (by decide)⟩

theorem isPart_of_mem_groups {part : Text}
    (hpart : part ∈ groups.map fun g => Nat.toDigits 16 g.toNat) : IsPart part := by
  obtain ⟨g, -, rfl⟩ := List.mem_map.mp hpart
  exact isPart_toDigits _

theorem isPart_dotted : IsPart (dotted a b c d) :=
  ⟨by simp [dotted], notMem_dotted (by decide) (by decide)⟩

theorem splitOn_intercalate_parts (hparts : ∀ part ∈ parts, IsPart part) (hne : parts ≠ []) :
    ([':'].intercalate parts).splitOn ':' = parts :=
  List.splitOn_intercalate ':' (fun part hpart => (hparts part hpart).colon_notMem) hne

theorem readParts?_intercalate (hparts : ∀ part ∈ parts, IsPart part) :
    readParts? ([':'].intercalate parts) = (parts.mapM readPart?).map List.flatten := by
  cases parts with
  | nil => rfl
  | cons part rest =>
    have hne : [':'].intercalate (part :: rest) ≠ [] := by
      cases rest <;> simp [(hparts part List.mem_cons_self).ne_nil]
    rw [readParts?, if_neg hne, splitOn_intercalate_parts hparts (List.cons_ne_nil part rest)]

theorem readParts?_pair {first second : Text} {front back : List UInt16} (hfirst : IsPart first)
    (hsecond : IsPart second) (hfront : readPart? first = some front)
    (hback : readPart? second = some back) :
    readParts? (first ++ ':' :: second) = some (front ++ back) := by
  have hparts : ∀ part ∈ [first, second], IsPart part := by
    rw [List.forall_mem_cons, List.forall_mem_singleton]
    exact ⟨hfirst, hsecond⟩
  have hread := readParts?_intercalate hparts
  simpa [hfront, hback] using hread

/-- Colons do not meet between parts, nor where one more follows. -/
theorem not_isInfix_intercalate (hparts : ∀ part ∈ parts, IsPart part) :
    ¬[':', ':'] <:+: [':'].intercalate parts ++ [':'] := by
  rintro ⟨front, back, h⟩
  by_cases hnil : parts = []
  · rw [hnil] at h
    have hlength := congrArg List.length h
    simp only [List.length_append, List.length_cons, List.length_nil, List.intercalate_nil] at hlength
    omega
  · -- the two colons leave an empty part, and it is not the one behind the last colon
    have hsplit := congrArg (List.splitOn ':') h
    rw [List.append_assoc, List.cons_append, List.cons_append, List.nil_append,
      List.splitOn_append_cons_self, ← List.nil_append (':' :: back), List.splitOn_append_cons_self,
      List.splitOn_append_cons_self, splitOn_intercalate_parts hparts hnil, List.splitOn_nil] at hsplit
    have hdrop := congrArg List.dropLast hsplit
    rw [List.dropLast_concat, List.dropLast_append_of_ne_nil (by simp), List.singleton_append,
      List.dropLast_cons_of_ne_nil (List.splitOn_ne_nil ':' back)] at hdrop
    exact (hparts [] (hdrop ▸ by simp)).ne_nil rfl

theorem readParts?_groupsText (groups : List UInt16) : readParts? (groupsText groups) = some groups := by
  have hread : (groups.map fun g => Nat.toDigits 16 g.toNat).mapM readPart? =
      some (groups.map fun g => [g]) := by
    induction groups with
    | nil => rfl
    | cons g groups ih => simp [readPart?_toDigits, ih]
  rw [groupsText, readParts?_intercalate, hread, Option.map_some]
  · exact congrArg some (List.flatMap_singleton' groups)
  · exact fun part => isPart_of_mem_groups

theorem not_isInfix_groupsText (groups : List UInt16) :
    ¬[':', ':'] <:+: groupsText groups ++ [':'] :=
  not_isInfix_intercalate fun _ => isPart_of_mem_groups

theorem readGroups?_groupsText (groups : List UInt16) : readGroups? (groupsText groups) = some groups := by
  have hcut : Text.cutAt? [':', ':'] (groupsText groups) = none :=
    Text.cutAt?_eq_none_of_not_isInfix fun h =>
      not_isInfix_groupsText groups (h.trans (List.prefix_append _ _).isInfix)
  rw [readGroups?, hcut]
  exact readParts?_groupsText groups

/-- What was left out is as many zeros as make eight groups. -/
theorem readGroups?_gap (front : List UInt16) (n : Nat) {back : List UInt16} {backText : Text}
    (hback : readParts? backText = some back)
    (hlength : (front ++ List.replicate n 0 ++ back).length = 8) :
    readGroups? (groupsText front ++ [':', ':'] ++ backText) =
      some (front ++ List.replicate n 0 ++ back) := by
  have hcount : 8 - front.length - back.length = n := by
    rw [List.length_append, List.length_append, List.length_replicate] at hlength
    omega
  rw [readGroups?, Text.cutAt?_gap (not_isInfix_groupsText front)]
  simp only [readParts?_groupsText, hback, Option.bind_eq_bind, Option.bind_some, hcount]
  rfl

/-! ### Zeros -/

theorem longestZeros_le (groups : List UInt16) :
    (longestZeros groups).2 ≤ zerosAt groups (longestZeros groups).1 := by
  refine List.foldlRecOn (motive := fun best : Nat × Nat => best.2 ≤ zerosAt groups best.1) _ _
    (Nat.zero_le _) fun best hbest i _ => ?_
  split
  · exact Nat.le_refl _
  · exact hbest

theorem take_drop_eq_replicate {start count : Nat} (h : count ≤ zerosAt groups start) :
    (groups.drop start).take count = List.replicate count 0 := by
  have hlength : count ≤ (groups.drop start).length :=
    Nat.le_trans h (List.takeWhile_prefix _).length_le
  have hpre : (groups.drop start).take count <+: (groups.drop start).takeWhile (· = 0) := by
    refine List.prefix_of_prefix_length_le (List.take_prefix _ _) (List.takeWhile_prefix _) ?_
    rw [List.length_take_of_le hlength]
    exact h
  refine List.eq_replicate_iff.mpr ⟨List.length_take_of_le hlength, fun g hg => ?_⟩
  simpa using List.mem_takeWhile_imp (hpre.subset hg)

theorem take_append_zeros {start count : Nat} (h : count ≤ zerosAt groups start) :
    groups.take start ++ List.replicate count 0 ++ groups.drop (start + count) = groups :=
  calc groups.take start ++ List.replicate count 0 ++ groups.drop (start + count)
    _ = groups.take start ++ ((groups.drop start).take count ++ (groups.drop start).drop count) := by
        rw [take_drop_eq_replicate h, List.drop_drop, List.append_assoc]
    _ = groups := by rw [List.take_append_drop, List.take_append_drop]

/-! ### Addresses -/

theorem readGroups?_v6Text (hlength : groups.length = 8) : readGroups? (v6Text groups) = some groups := by
  unfold v6Text
  split
  · next x y =>
    have hback := readParts?_pair (isPart_toDigits 0xFFFF) isPart_dotted (readPart?_toDigits 0xFFFF)
      (readPart?_mapped x y)
    exact readGroups?_gap [] 5 hback rfl
  · have hall := take_append_zeros (longestZeros_le groups)
    split
    next start count hzeros =>
    rw [hzeros] at hall
    split
    · exact readGroups?_groupsText groups
    · have hread := readGroups?_gap _ count (readParts?_groupsText (groups.drop (start + count)))
        ((congrArg List.length hall).trans hlength)
      rwa [hall] at hread

theorem colon_mem_v6Text (hlength : groups.length = 8) : ':' ∈ v6Text groups := by
  unfold v6Text
  split
  · simp
  · split
    split
    · obtain ⟨g, h, rest, rfl⟩ : ∃ g h rest, groups = g :: h :: rest := by
        match groups, hlength with
        | g :: h :: rest, _ => exact ⟨g, h, rest, rfl⟩
      simp [groupsText]
    · simp

theorem ofText?_text (ip : Ip) : ofText? ip.text = some ip := by
  cases ip with
  | v4 a b c d =>
    have ha := a.toNat_lt
    have hb := b.toNat_lt
    have hc := c.toNat_lt
    have hd := d.toNat_lt
    rw [text, ofText?, if_neg (notMem_dotted (by decide) (by decide)),
      readBytes?_dotted (by omega) (by omega) (by omega) (by omega)]
    simp
  | v6 groups =>
    have hlength : groups.toList.length = 8 := groups.length_toList
    rw [text, ofText?, if_pos (colon_mem_v6Text hlength), readGroups?_v6Text hlength]
    simp [Vector.toList]

end Ip

namespace Endpoint

/-- The address and the port of a client. -/
def ofClientText? (t : Text) : Option (Ip × UInt16) := do
  let (ip, port) ← Text.cutLast? ':' t
  return (← Ip.ofText? ip, .ofNat (← (Text.readNat 65535 port).toOption))

theorem ofClientText?_clientText (e : Endpoint) : ofClientText? e.clientText = some (e.ip, e.port) := by
  have hport := e.port.toNat_lt
  have hcolon : ':' ∉ Text.ofNat e.port.toNat := (Text.isNumeral_ofNat _).notMem (by decide)
  simp [ofClientText?, clientText, Text.cutLast?_append hcolon, Ip.ofText?_text,
    Text.toOption_readNat_ofNat (show e.port.toNat ≤ 65535 by omega)]

theorem ofClientText?_unknownClient : ofClientText? unknownClient = none := by decide

theorem clientText_eq_iff {e other : Endpoint} :
    e.clientText = other.clientText ↔ e.ip = other.ip ∧ e.port = other.port := by
  constructor
  · intro h
    have hread := congrArg ofClientText? h
    rw [ofClientText?_clientText, ofClientText?_clientText] at hread
    exact Prod.mk.inj (Option.some.inj hread)
  · rintro ⟨hip, hport⟩
    rw [clientText, clientText, hip, hport]

theorem clientText_ne_unknownClient (e : Endpoint) : e.clientText ≠ unknownClient := by
  intro h
  have hread := ofClientText?_clientText e
  rw [h, ofClientText?_unknownClient] at hread
  cases hread

end Endpoint

/-! ### Records -/

/-- The record of some request from `client`, which is none if the client is not known. -/
def EchoRecord.CameFrom (record : EchoRecord) (client : Option Endpoint) : Prop :=
  ∃ received answered request, ofRequest (.of received answered client) request = .ok record

theorem EchoRecord.CameFrom.clientAddress_eq {record : EchoRecord} {client : Option Endpoint}
    (h : record.CameFrom client) :
    record.clientAddress = client.elim unknownClient Endpoint.clientText := by
  obtain ⟨received, answered, request, hrecord⟩ := h
  obtain ⟨body, -, hrecord⟩ := bind_eq_ok_iff.mp hrecord
  cases hrecord
  rfl

/-- A record tells the address and the port of its client: both are read back from the text. Two clients
have one text exactly if they have one address and one port, and none has the text of an unknown client. -/
theorem clientAddress_faithful {client other : Endpoint} {record otherRecord unknownRecord : EchoRecord}
    (hrecord : record.CameFrom client) (hother : otherRecord.CameFrom other)
    (hunknown : unknownRecord.CameFrom none) :
    Endpoint.ofClientText? record.clientAddress = some (client.ip, client.port) ∧
      (record.clientAddress = otherRecord.clientAddress ↔
        client.ip = other.ip ∧ client.port = other.port) ∧
      record.clientAddress ≠ unknownRecord.clientAddress := by
  rw [hrecord.clientAddress_eq, hother.clientAddress_eq, hunknown.clientAddress_eq]
  exact ⟨client.ofClientText?_clientText, Endpoint.clientText_eq_iff, client.clientText_ne_unknownClient⟩

theorem EchoRecord.exists_cameFrom (client : Option Endpoint) :
    ∃ record : EchoRecord, record.CameFrom client :=
  ⟨_, ⟨0, 0⟩, ⟨0, 0⟩, ⟨.get, ['/'], .http11, [], none⟩, rfl⟩

/-- A port of one digit behind an address that ends in a group of one digit. -/
def shortPort : Endpoint := ⟨.v6 #v[1, 0, 0, 0, 0, 0, 0, 2], 3, 7⟩

/-- Its address alone is written like `shortPort`. -/
def longAddress : Endpoint := ⟨.v6 #v[1, 0, 0, 0, 0, 0, 2, 3], 4, 0⟩

theorem clientAddress_faithful_short_port :
    Endpoint.ofClientText? "1::2:3".toList = some (.v6 #v[1, 0, 0, 0, 0, 0, 0, 2], 3) ∧
      longAddress.ip.text = "1::2:3".toList ∧
      "1::2:3".toList ≠ longAddress.clientText ∧ "1::2:3".toList ≠ unknownClient := by
  have htext : shortPort.clientText = "1::2:3".toList := by decide
  obtain ⟨record, hrecord⟩ := EchoRecord.exists_cameFrom shortPort
  obtain ⟨otherRecord, hother⟩ := EchoRecord.exists_cameFrom longAddress
  obtain ⟨unknownRecord, hunknown⟩ := EchoRecord.exists_cameFrom none
  obtain ⟨hread, hiff, hne⟩ := clientAddress_faithful hrecord hother hunknown
  rw [hrecord.clientAddress_eq, Option.elim_some, htext] at hread hiff hne
  rw [hother.clientAddress_eq] at hiff
  rw [hunknown.clientAddress_eq] at hne
  exact ⟨hread, by decide, hiff.not.mpr (by decide), hne⟩

end HttpEcho
