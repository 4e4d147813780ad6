import HttpEcho.Proofs.Entries
import HttpEcho.Proofs.Rendering

/-!
# Reading an encoded target

A path and query parameters are written byte by byte: a byte that is not unreserved becomes an escape,
and in the parameters a space may become a plus sign. Of the characters at which a target is cut, none
is left inside a part, so reading gives back the path and the parameters, whatever characters they have.
-/

namespace HttpEcho

variable {inForm : Bool} {b : UInt8} {bytes : Bytes} {t part written : Text}

/-! ### How a target is written -/

/-- The characters that always stand for themselves. -/
def isUnreserved (c : Char) : Bool := c.isAlphanum || c = '-' || c = '.' || c = '_' || c = '~'

def escapeDigit (upper : Bool) (n : Nat) : Char := if upper then n.digitChar.toUpper else n.digitChar

/-- Each of the two digits may be in either case. -/
def percentEscape (highUpper lowUpper : Bool) (b : UInt8) : Text :=
  ['%', escapeDigit highUpper (b.toNat / 16), escapeDigit lowUpper (b.toNat % 16)]

/-- What a byte may be written as. A slash need not be escaped, and in a form, which is where parameters
are, a space may be a plus sign. -/
inductive EncodesByte (inForm : Bool) (b : UInt8) : Text → Prop
  | plain (hplain : isUnreserved (Char.ofUInt8 b) ∨ b = 0x2F) : EncodesByte inForm b [Char.ofUInt8 b]
  | escaped (hreserved : ¬isUnreserved (Char.ofUInt8 b)) (highUpper lowUpper : Bool) :
    EncodesByte inForm b (percentEscape highUpper lowUpper b)
  | plus (hform : inForm) (hspace : b = 0x20) : EncodesByte inForm b ['+']

inductive Encodes (inForm : Bool) : Bytes → Text → Prop
  | nil : Encodes inForm [] []
  | cons {b : UInt8} {bytes : Bytes} {part written : Text} (hpart : EncodesByte inForm b part)
    (hrest : Encodes inForm bytes written) : Encodes inForm (b :: bytes) (part ++ written)

/-- A key and a value with a `=` between them. -/
def EncodesPair (pair : Text × Text) (segment : Text) : Prop :=
  ∃ key value, Encodes true (Text.utf8 pair.1) key ∧ Encodes true (Text.utf8 pair.2) value ∧
    segment = key ++ '=' :: value

def joinTarget (path : Text) (segments : List Text) : Text :=
  path ++ if segments = [] then [] else '?' :: ['&'].intercalate segments

/-- The target is a way to write the path and the pairs. -/
def EncodesTarget (path : Text) (pairs : List (Text × Text)) (target : Text) : Prop :=
  ∃ written segments, Encodes false (Text.utf8 path) written ∧ List.Forall₂ EncodesPair pairs segments ∧
    target = joinTarget written segments

/-! ### The characters of what is written -/

def isEncoded (inForm : Bool) (c : Char) : Bool :=
  isUnreserved c || c = '/' || c = '%' || (inForm && c = '+')

theorem hexDigit?_escapeDigit : ∀ upper, ∀ n < 16, Text.hexDigit? (escapeDigit upper n) = some n := by
  decide

theorem isUnreserved_escapeDigit : ∀ upper, ∀ n < 16, isUnreserved (escapeDigit upper n) := by
  decide

theorem toNat_of_isUnreserved {c : Char} (h : isUnreserved c) : 0x2D ≤ c.toNat ∧ c.toNat < 0x7F := by
  change (decide ('A'.val ≤ c.val ∧ c.val ≤ 'Z'.val) || ('a'.val ≤ c.val && c.val ≤ 'z'.val) ||
    ('0'.val ≤ c.val && c.val ≤ '9'.val) || c = '-' || c = '.' || c = '_' || c = '~') = true at h
  simp only [Bool.or_eq_true, Bool.and_eq_true, decide_eq_true_eq] at h
  rcases h with (((((h | h) | h) | rfl) | rfl) | rfl) | rfl
  · exact ⟨le_trans (by decide) h.1, lt_of_le_of_lt h.2 (by decide)⟩
  · exact ⟨le_trans (by decide) h.1, lt_of_le_of_lt h.2 (by decide)⟩
  · exact ⟨le_trans (by decide) h.1, lt_of_le_of_lt h.2 (by decide)⟩
  all_goals decide

theorem EncodesByte.isEncoded_of_mem (h : EncodesByte inForm b part) : ∀ c ∈ part, isEncoded inForm c := by
  cases h with
  | plain hplain =>
    rw [List.forall_mem_singleton]
    rcases hplain with hplain | rfl
    · simp [isEncoded, hplain]
    · cases inForm <;> decide
  | escaped hreserved highUpper lowUpper =>
    have hhigh : b.toNat / 16 < 16 := by have := b.toNat_lt; omega
    have hlow : b.toNat % 16 < 16 := by omega
    simp [percentEscape, isEncoded, isUnreserved_escapeDigit _ _ hhigh, isUnreserved_escapeDigit _ _ hlow]
  | plus hform hspace => simp [isEncoded, hform]

theorem Encodes.isEncoded_of_mem (h : Encodes inForm bytes written) :
    ∀ c ∈ written, isEncoded inForm c := by
  induction h with
  | nil => exact List.forall_mem_nil _
  | cons hpart hrest ih => exact List.forall_mem_append.mpr ⟨hpart.isEncoded_of_mem, ih⟩

theorem Encodes.notMem (h : Encodes inForm bytes written) {c : Char} (hc : isEncoded inForm c = false) :
    c ∉ written := by
  intro hmem
  rw [h.isEncoded_of_mem c hmem] at hc
  cases hc

theorem Encodes.ne_nil (h : Encodes inForm bytes written) (hbytes : bytes ≠ []) : written ≠ [] := by
  cases h with
  | nil => exact absurd rfl hbytes
  | cons hpart hrest => cases hpart <;> exact List.cons_ne_nil _ _

/-! ### Reading a part back -/

theorem hexByte?_escapeDigit (highUpper lowUpper : Bool) (b : UInt8) :
    Text.hexByte? (escapeDigit highUpper (b.toNat / 16)) (escapeDigit lowUpper (b.toNat % 16)) =
      some b := by
  have hhigh := hexDigit?_escapeDigit highUpper (b.toNat / 16) (by have := b.toNat_lt; omega)
  have hlow := hexDigit?_escapeDigit lowUpper (b.toNat % 16) (by omega)
  have hbyte : UInt8.ofNat (16 * (b.toNat / 16) + b.toNat % 16) = b := by
    rw [Nat.div_add_mod, UInt8.ofNat_toNat]
  rw [Text.hexByte?, hhigh, hlow]
  exact congrArg some hbyte

theorem percentBytes_percentEscape (highUpper lowUpper : Bool) (b : UInt8) (rest : Text) :
    Text.percentBytes (percentEscape highUpper lowUpper b ++ rest) = b :: Text.percentBytes rest := by
  simp only [percentEscape, List.cons_append, List.nil_append, Text.percentBytes, hexByte?_escapeDigit]

theorem percentBytes_cons_of_ne {c : Char} (hc : c ≠ '%') (rest : Text) :
    Text.percentBytes (c :: rest) = String.utf8EncodeChar c ++ Text.percentBytes rest := by
  rw [Text.percentBytes]
  intro high low tail h
  exact absurd h hc

def spaceForPlus (c : Char) : Char := if c = '+' then ' ' else c

theorem map_spaceForPlus (ht : '+' ∉ t) : t.map spaceForPlus = t := by
  conv_rhs => rw [← List.map_id t]
  exact List.map_congr_left fun c hc => if_neg (ne_of_mem_of_not_mem hc ht)

theorem EncodesByte.percentBytes_append (h : EncodesByte inForm b part) (rest : Text) :
    Text.percentBytes (part.map spaceForPlus ++ rest) = b :: Text.percentBytes rest := by
  cases h with
  | plain hplain =>
    have hrange : 0x2D ≤ b.toNat ∧ b.toNat < 0x7F := by
      rcases hplain with hplain | rfl
      · exact toNat_of_isUnreserved hplain
      · decide
    have hchar : Char.ofUInt8 b = Char.ofNat b.toNat := (Char.ofNat_toNat _).symm
    have hne : ∀ c : Char, c.toNat < 0x2D → Char.ofUInt8 b ≠ c := by
      rintro c hc rfl
      exact absurd hrange.1 (Nat.not_le.mpr hc)
    rw [map_spaceForPlus (by simpa using (hne '+' (by decide)).symm), List.singleton_append,
      percentBytes_cons_of_ne (hne '%' (by decide)), hchar, Text.Utf8.encode_one (by omega),
      UInt8.ofNat_toNat, List.singleton_append]
  | escaped hreserved highUpper lowUpper =>
    have hplus : '+' ∉ percentEscape highUpper lowUpper b := by
      have hencoded : EncodesByte false b _ := .escaped hreserved highUpper lowUpper
      exact fun hmem => absurd (hencoded.isEncoded_of_mem _ hmem) (by decide)
    rw [map_spaceForPlus hplus, percentBytes_percentEscape]
  | plus hform hspace =>
    rw [hspace]
    rfl

theorem Encodes.percentBytes_map (h : Encodes inForm bytes written) :
    Text.percentBytes (written.map spaceForPlus) = bytes := by
  induction h with
  | nil => rfl
  | cons hpart hrest ih => rw [List.map_append, hpart.percentBytes_append, ih]

theorem Encodes.formDecode_eq (h : Encodes inForm (Text.utf8 t) written) :
    Text.formDecode written = t := by
  have hbytes : Text.formDecode written =
      Text.ofUtf8Lossy (Text.percentBytes (written.map spaceForPlus)) := rfl
  rw [hbytes, h.percentBytes_map, Text.ofUtf8Lossy_utf8]

theorem Encodes.percentDecode_eq (h : Encodes false (Text.utf8 t) written) :
    Text.percentDecode written = t := by
  have hform : Text.formDecode written = Text.percentDecode (written.map spaceForPlus) := rfl
  rw [← h.formDecode_eq, hform, map_spaceForPlus (h.notMem (by decide))]

/-! ### Reading the target back -/

theorem stripAuthority_of_colon_notMem {path : Text} (hcolon : ':' ∉ path) :
    stripAuthority path = path := by
  have hcut : Text.cutAt? "://".toList path = none := by
    refine Text.cutAt?_eq_none_of_not_isInfix fun hin => hcolon (hin.subset ?_)
    decide
  rw [stripAuthority, hcut]
  split <;> rfl

/-- Any character of a target. Four of them stand between the parts. -/
def isTargetChar (c : Char) : Bool := isEncoded true c || ['=', '&', '?'].contains c

theorem Encodes.isTargetChar_of_mem (h : Encodes inForm bytes written) :
    ∀ c ∈ written, isTargetChar c := by
  intro c hc
  have hencoded := h.isEncoded_of_mem c hc
  cases inForm <;> simp_all [isTargetChar, isEncoded]

theorem toNat_of_isTargetChar {c : Char} (h : isTargetChar c) : 0x25 ≤ c.toNat ∧ c.toNat < 0x7F := by
  simp only [isTargetChar, isEncoded, Bool.or_eq_true, Bool.and_eq_true, decide_eq_true_eq,
    List.contains_iff_mem, List.mem_cons, List.not_mem_nil, or_false] at h
  rcases h with (((h | rfl) | rfl) | ⟨-, rfl⟩) | rfl | rfl | rfl
  · have := toNat_of_isUnreserved h
    omega
  all_goals decide

/-- What stands between two `&`. -/
structure IsSegment (segment : Text) : Prop where
  separator_notMem : '&' ∉ segment
  isTargetChar_of_mem : ∀ c ∈ segment, isTargetChar c

theorem EncodesPair.isSegment {pair : Text × Text} {segment : Text} (h : EncodesPair pair segment) :
    IsSegment segment := by
  obtain ⟨key, value, hkey, hvalue, rfl⟩ := h
  refine ⟨?_, ?_⟩
  · simp [hkey.notMem (c := '&') (by decide), hvalue.notMem (c := '&') (by decide)]
  · rw [List.forall_mem_append, List.forall_mem_cons]
    exact ⟨hkey.isTargetChar_of_mem, by decide, hvalue.isTargetChar_of_mem⟩

theorem mem_of_mem_intercalate {c sep : Char} {segments : List Text}
    (h : c ∈ [sep].intercalate segments) : c = sep ∨ ∃ segment ∈ segments, c ∈ segment := by
  induction segments with
  | nil => cases h
  | cons segment segments ih =>
    by_cases hnil : segments = []
    · rw [hnil, List.intercalate_singleton] at h
      exact Or.inr ⟨segment, List.mem_cons_self, h⟩
    · rw [List.intercalate_cons_of_ne_nil hnil, List.mem_append, List.mem_append] at h
      rcases h with (h | h) | h
      · exact Or.inr ⟨segment, List.mem_cons_self, h⟩
      · exact Or.inl (List.mem_singleton.mp h)
      · exact (ih h).imp_right fun ⟨s, hs, hc⟩ => ⟨s, List.mem_cons_of_mem segment hs, hc⟩

section Pairs

variable {pairs : List (Text × Text)} {segments : List Text}
  (h : List.Forall₂ EncodesPair pairs segments)

include h

theorem isSegment_of_mem : ∀ segment ∈ segments, IsSegment segment := by
  induction h with
  | nil => exact List.forall_mem_nil _
  | cons hpair hrest ih => exact List.forall_mem_cons.mpr ⟨hpair.isSegment, ih⟩

theorem queryPairs_intercalate (hvalues : ∀ pair ∈ pairs, pair.2 ≠ []) (hne : segments ≠ []) :
    queryPairs (['&'].intercalate segments) = pairs := by
  rw [queryPairs, List.splitOn_intercalate '&' (fun s hs => (isSegment_of_mem h s hs).separator_notMem) hne]
  clear hne
  induction h with
  | nil => rfl
  | @cons pair segment pairs segments hpair hrest ih =>
    rw [List.forall_mem_cons] at hvalues
    obtain ⟨key, value, hkey, hvalue, rfl⟩ := hpair
    have hcut : Text.cut? '=' (key ++ '=' :: value) = some (key, value) :=
      Text.cut?_append (hkey.notMem (by decide)) value
    have hne : value ≠ [] := hvalue.ne_nil (mt Text.utf8_eq_nil_iff.mp hvalues.1)
    obtain ⟨c, rest, rfl⟩ := List.exists_cons_of_ne_nil hne
    rw [List.filterMap_cons, hcut, ih hvalues.2]
    simp only [hkey.formDecode_eq, hvalue.formDecode_eq]

theorem isTargetChar_of_mem_joinTarget {path written : Text}
    (hpath : Encodes false (Text.utf8 path) written) :
    ∀ c ∈ joinTarget written segments, isTargetChar c := by
  rw [joinTarget, List.forall_mem_append]
  refine ⟨hpath.isTargetChar_of_mem, ?_⟩
  split
  · exact List.forall_mem_nil _
  · rw [List.forall_mem_cons]
    refine ⟨by decide, fun c hc => ?_⟩
    rcases mem_of_mem_intercalate hc with rfl | ⟨segment, hsegment, hc⟩
    · decide
    · exact (isSegment_of_mem h segment hsegment).isTargetChar_of_mem c hc

theorem ofText_joinTarget {path written : Text} (hpath : Encodes false (Text.utf8 path) written)
    (hvalues : ∀ pair ∈ pairs, pair.2 ≠ []) :
    Target.ofText (joinTarget written segments) = ⟨path, Entries.group pairs⟩ := by
  have hfragment : (joinTarget written segments).takeWhile (· ≠ '#') = joinTarget written segments := by
    rw [List.takeWhile_eq_self_iff]
    intro c hc
    have hchar := isTargetChar_of_mem_joinTarget h hpath c hc
    rw [decide_eq_true_eq]
    rintro rfl
    exact absurd hchar (by decide)
  have hcut : (Text.cut? '?' (joinTarget written segments)).getD (joinTarget written segments, []) =
      (written, ['&'].intercalate segments) := by
    by_cases hnil : segments = []
    · have hnone : Text.cut? '?' written = none :=
        Text.cut?_eq_none_iff.mpr (hpath.notMem (by decide))
      rw [joinTarget, if_pos hnil, List.append_nil, hnone, hnil]
      rfl
    · rw [joinTarget, if_neg hnil, Text.cut?_append (hpath.notMem (by decide))]
      rfl
  have hquery : queryPairs (['&'].intercalate segments) = pairs := by
    by_cases hnil : segments = []
    · subst hnil
      cases h
      rfl
    · exact queryPairs_intercalate h hvalues hnil
  simp only [Target.ofText, hfragment, hcut, readQuery, hquery,
    stripAuthority_of_colon_notMem (hpath.notMem (c := ':') (by decide)), hpath.percentDecode_eq]

end Pairs

theorem isTarget_of_encodesTarget {path target : Text} {pairs : List (Text × Text)}
    (htarget : EncodesTarget path pairs target) (hpath : path ≠ []) : IsTarget target := by
  obtain ⟨written, segments, hwritten, hsegments, rfl⟩ := htarget
  have hrange : ∀ c ∈ joinTarget written segments, 0x25 ≤ c.toNat ∧ c.toNat < 0x7F := fun c hc =>
    toNat_of_isTargetChar (isTargetChar_of_mem_joinTarget hsegments hwritten c hc)
  refine ⟨?_, ?_, ?_⟩
  · exact List.append_ne_nil_of_left_ne_nil (hwritten.ne_nil (mt Text.utf8_eq_nil_iff.mp hpath)) _
  · intro c hc
    have := hrange c hc
    simp only [Text.isBlank, Bool.or_eq_true, Bool.and_eq_true, decide_eq_true_eq]
    omega
  · intro c hc
    have := hrange c hc
    omega

/-- A request whose target is a way to write a path and pairs with values has that path, and as its
query the pairs grouped by key, the keys in the order in which they first come and the values of each
key in order. A request line with such a target is read as it stands. -/
theorem path_query_of_encodesTarget {path target : Text} {pairs : List (Text × Text)}
    (hpath : path.head? = some '/') (hvalues : ∀ pair ∈ pairs, pair.2 ≠ [])
    (htarget : EncodesTarget path pairs target) :
    (∀ raw r, Request.parse raw = .ok r → r.target = target → r.path = path ∧
      r.query = (pairs.map Prod.fst).eraseDups.map fun key => (key, Entries.valuesOf key pairs)) ∧
      ∀ m v, Request.parse (renderHead m target v []) = .ok ⟨m, target, v, [], none⟩ := by
  constructor
  · rintro raw r - rfl
    obtain ⟨written, segments, hwritten, hsegments, hjoin⟩ := htarget
    have hread := ofText_joinTarget hsegments hwritten hvalues
    rw [Request.path, Request.query, hjoin, hread, Entries.group_eq]
    exact ⟨rfl, rfl⟩
  · intro m v
    have hne : path ≠ [] := by
      rintro rfl
      cases hpath
    exact parse_head (isTarget_of_encodesTarget htarget hne) (List.forall_mem_nil _)

/-! ### One way to write a target -/

def encodeByte (inForm : Bool) (b : UInt8) : Text :=
  if isUnreserved (Char.ofUInt8 b) || b = 0x2F then [Char.ofUInt8 b]
  else if inForm && b = 0x20 then ['+']
  else percentEscape true true b

def encodeText (inForm : Bool) (t : Text) : Text := (Text.utf8 t).flatMap (encodeByte inForm)

def encodeTarget (path : Text) (pairs : List (Text × Text)) : Text :=
  joinTarget (encodeText false path)
    (pairs.map fun pair => encodeText true pair.1 ++ '=' :: encodeText true pair.2)

theorem encodesByte_encodeByte (inForm : Bool) (b : UInt8) : EncodesByte inForm b (encodeByte inForm b) := by
  unfold encodeByte
  split
  · next hplain => exact .plain (by simpa using hplain)
  split
  · next hspace =>
    rw [Bool.and_eq_true, decide_eq_true_eq] at hspace
    exact .plus hspace.1 hspace.2
  · next hother _ => exact .escaped (fun hplain => hother (by simp [hplain])) true true

theorem encodes_encodeText (inForm : Bool) (t : Text) :
    Encodes inForm (Text.utf8 t) (encodeText inForm t) := by
  rw [encodeText]
  induction Text.utf8 t with
  | nil => exact .nil
  | cons b bytes ih => exact .cons (encodesByte_encodeByte inForm b) ih

theorem encodesTarget_encodeTarget (path : Text) (pairs : List (Text × Text)) :
    EncodesTarget path pairs (encodeTarget path pairs) := by
  refine ⟨_, _, encodes_encodeText false path, ?_, rfl⟩
  induction pairs with
  | nil => exact .nil
  | cons pair pairs ih =>
    exact .cons ⟨_, _, encodes_encodeText true pair.1, encodes_encodeText true pair.2, rfl⟩ ih

def exampleParameters : List (Text × Text) :=
  [("".toList, "#=".toList), ("x&".toList, ['1']), ("".toList, "a\u00FF+ ".toList)]

/-- The path holds what looks like a scheme, and the empty key comes twice. -/
theorem path_query_of_encodesTarget_empty_key :
    ∃ r, Request.parse (Text.toLatin1
        "GET /caf%C3%A9%3A//%20%3F?=%23%3D&x%26=1&=a%C3%BF%2B+ HTTP/1.1\r\n\r\n".toList) = .ok r ∧
      r.path = "/café:// ?".toList ∧
      r.query = [("".toList, ["#=".toList, "a\u00FF+ ".toList]), ("x&".toList, [['1']])] := by
  have htarget : encodeTarget "/café:// ?".toList exampleParameters =
      "/caf%C3%A9%3A//%20%3F?=%23%3D&x%26=1&=a%C3%BF%2B+".toList := by decide
  have hwritten := encodesTarget_encodeTarget "/café:// ?".toList exampleParameters
  rw [htarget] at hwritten
  obtain ⟨hread, hparse⟩ := path_query_of_encodesTarget (by decide) (by decide) hwritten
  exact ⟨_, hparse .get .http11, hread _ _ (hparse .get .http11) rfl⟩

end HttpEcho
