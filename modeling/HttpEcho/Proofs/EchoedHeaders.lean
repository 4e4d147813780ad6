import HttpEcho.Echo.Record
import HttpEcho.Proofs.HeaderMap
import HttpEcho.Proofs.Parsing

/-!
# The headers of the record

The record keeps names in the spelling in which they came, and takes two spellings for two names, while a
header is looked up in any spelling. So the record has the header that is found, but under a name that came
in more than one spelling also others. Headers under a spelling of a hidden name make no difference to it,
wherever they stand.
-/

namespace HttpEcho

variable {arrival : Arrival} {r : Request} {record : EchoRecord} {name : Text}

/-- The headers with a name, in any spelling. -/
def Headers.named (headers : Headers) (name : Text) : Headers :=
  headers.filter fun field => Text.SameName field.1 name

def OneSpelling (headers : Headers) : Prop :=
  ∀ first ∈ headers, ∀ second ∈ headers, first.1 = second.1

instance : DecidablePred OneSpelling := fun headers =>
  inferInstanceAs (Decidable (∀ first ∈ headers, ∀ second ∈ headers, first.1 = second.1))

theorem isHidden_eq_false {spelling : Text} (hname : Text.SameName spelling name)
    (hhost : ¬Text.SameName name "Host".toList)
    (hlength : ¬Text.SameName name "Content-Length".toList) :
    EchoRecord.isHidden spelling = false := by
  rw [EchoRecord.isHidden, EchoRecord.hiddenNames, List.any_cons, List.any_cons, List.any_nil]
  have hhost' : ¬Text.SameName "Host".toList spelling := fun h => hhost (h.trans hname).symm
  have hlength' : ¬Text.SameName contentLengthName spelling := fun h => hlength (h.trans hname).symm
  rw [decide_eq_false hhost', decide_eq_false hlength']
  rfl

/-- What the record has under a name comes from the headers with that name alone. -/
theorem named_visibleHeaders (headers : Headers) (hhost : ¬Text.SameName name "Host".toList)
    (hlength : ¬Text.SameName name "Content-Length".toList) :
    (EchoRecord.visibleHeaders headers).named name = Entries.ofList (headers.named name) := by
  rw [Headers.named, EchoRecord.visibleHeaders,
    Entries.filter_ofList (fun spelling => decide (Text.SameName spelling name)), List.filter_filter]
  congr 1
  refine List.filter_congr fun field _ => ?_
  by_cases hname : Text.SameName field.1 name
  · simp [hname, isHidden_eq_false hname hhost hlength]
  · simp [hname]

theorem headers_of_ofRequest (h : EchoRecord.ofRequest arrival r = .ok record) :
    record.headers = EchoRecord.visibleHeaders r.headers := by
  obtain ⟨body, -, hrecord⟩ := bind_eq_ok_iff.mp h
  rw [← Except.ok.inj hrecord]

/-- For a name that is not hidden the record has a header if and only if lookup finds one, and then also
the one that is found. It has no other one if and only if the name came in one spelling. -/
theorem named_headers_eq_iff (hrecord : EchoRecord.ofRequest arrival r = .ok record)
    (hhost : ¬Text.SameName name "Host".toList)
    (hlength : ¬Text.SameName name "Content-Length".toList) :
    (record.headers.named name = [] ↔ r.header name = none) ∧
      (∀ value, r.header name = some value →
        ∃ spelling, (spelling, value) ∈ record.headers.named name) ∧
      ((record.headers.named name).map Prod.snd = (r.header name).toList ↔
        OneSpelling (r.headers.named name)) := by
  have hnamed : record.headers.named name = Entries.ofList (r.headers.named name) := by
    rw [headers_of_ofRequest hrecord, named_visibleHeaders r.headers hhost hlength]
  have hlookup : r.header name = (r.headers.named name).getLast?.map Prod.snd :=
    Headers.last?_eq_getLast? r.headers name
  have hfound : ∀ field, (r.headers.named name).getLast? = some field →
      field ∈ record.headers.named name := fun field hlast =>
    hnamed ▸ Entries.mem_ofList_of_getLast? hlast
  refine ⟨?_, fun value hvalue => ?_, ?_⟩
  · rw [hlookup, Option.map_eq_none_iff, List.getLast?_eq_none_iff]
    refine ⟨fun hnone => ?_, fun hnone => by rw [hnamed, hnone]; rfl⟩
    by_contra hne
    have hlast := hfound _ (List.getLast?_eq_some_getLast hne)
    rw [hnone] at hlast
    cases hlast
  · rw [hlookup, Option.map_eq_some_iff] at hvalue
    obtain ⟨field, hlast, rfl⟩ := hvalue
    exact ⟨field.1, hfound field hlast⟩
  · rw [hnamed, hlookup]
    exact Entries.map_snd_ofList_eq_iff

theorem named_headers_eq_iff_repeated_header :
    ∃ r record, Request.parse (Text.toLatin1 "GET / HTTP/1.1\r\nX-A: 1\r\nB: 3\r\nX-A: 2\r\n\r\n".toList) =
        .ok r ∧
      EchoRecord.ofRequest ⟨"now".toList, "client".toList, [], []⟩ r = .ok record ∧
      r.header "x-a".toList = some ['2'] ∧
      (record.headers.named "x-a".toList).map Prod.snd = (r.header "x-a".toList).toList := by
  refine ⟨⟨.get, ['/'], .http11, [("X-A".toList, ['1']), (['B'], ['3']), ("X-A".toList, ['2'])], none⟩, _,
    by decide, rfl, by decide, ?_⟩
  have hhost : ¬Text.SameName "x-a".toList "Host".toList := by decide
  have hlength : ¬Text.SameName "x-a".toList "Content-Length".toList := by decide
  refine (named_headers_eq_iff rfl hhost hlength).2.2.mpr ?_
  decide

/-- The first of two spellings stays with the value that no longer counts. -/
theorem named_headers_of_two_spellings :
    ∃ r record, Request.parse (Text.toLatin1 "GET / HTTP/1.1\r\nX-A: 1\r\nx-a: 2\r\n\r\n".toList) = .ok r ∧
      EchoRecord.ofRequest ⟨"now".toList, "client".toList, [], []⟩ r = .ok record ∧
      r.header "X-A".toList = some ['2'] ∧
      record.headers.named "X-A".toList = [("X-A".toList, ['1']), ("x-a".toList, ['2'])] :=
  ⟨⟨.get, ['/'], .http11, [("X-A".toList, ['1']), ("x-a".toList, ['2'])], none⟩, _, by decide, rfl,
    by decide, by decide⟩

/-! ### All headers -/

theorem isHidden_iff : EchoRecord.isHidden name ↔
    Text.SameName name "Host".toList ∨ Text.SameName name "Content-Length".toList := by
  simp only [EchoRecord.isHidden, EchoRecord.hiddenNames, List.any_cons, List.any_nil, Bool.or_false,
    Bool.or_eq_true, decide_eq_true_eq]
  exact or_congr ⟨.symm, .symm⟩ ⟨.symm, .symm⟩

/-- The second list is the first one with headers put in between, each under a spelling of a hidden name. -/
inductive AddsHidden : Headers → Headers → Prop
  | nil : AddsHidden [] []
  | keep (field : Text × Text) {headers more : Headers} (h : AddsHidden headers more) :
    AddsHidden (field :: headers) (field :: more)
  | add {field : Text × Text} {headers more : Headers}
    (hname : Text.SameName field.1 "Host".toList ∨ Text.SameName field.1 "Content-Length".toList)
    (h : AddsHidden headers more) : AddsHidden headers (field :: more)

theorem AddsHidden.visibleHeaders_eq {headers more : Headers} (h : AddsHidden headers more) :
    EchoRecord.visibleHeaders more = EchoRecord.visibleHeaders headers := by
  have hfilter : more.filter (fun field => !EchoRecord.isHidden field.1) =
      headers.filter fun field => !EchoRecord.isHidden field.1 := by
    induction h with
    | nil => rfl
    | keep field h ih => rw [List.filter_cons, List.filter_cons, ih]
    | add hname h ih =>
      rw [List.filter_cons, isHidden_iff.mpr hname, ih]
      rfl
  rw [EchoRecord.visibleHeaders, hfilter]
  rfl

theorem ofRequest_of_visibleHeaders_eq {more : Headers}
    (h : EchoRecord.visibleHeaders more = EchoRecord.visibleHeaders r.headers) :
    EchoRecord.ofRequest arrival { r with headers := more } = EchoRecord.ofRequest arrival r := by
  unfold EchoRecord.ofRequest
  simp only [h]
  rfl

theorem keys_visibleHeaders (headers : Headers) :
    Entries.keys (EchoRecord.visibleHeaders headers) =
      ((Entries.keys headers).filter fun name =>
        ¬Text.SameName name "Host".toList ∧ ¬Text.SameName name "Content-Length".toList).eraseDups := by
  rw [EchoRecord.visibleHeaders, Entries.keys_ofList, Entries.keys, Entries.keys, List.filter_map]
  congr 2
  refine List.filter_congr fun field _ => ?_
  rw [Function.comp_apply, Bool.eq_iff_iff, decide_eq_true_eq, ← not_or, ← isHidden_iff, Bool.not_eq_true']
  exact Bool.eq_false_iff

/-- A last field with its name stays the last one when fields with other names are put back in. -/
theorem exists_last_of_mem_visibleHeaders {headers : Headers} {field : Text × Text}
    (h : field ∈ EchoRecord.visibleHeaders headers) :
    ∃ front back, headers = front ++ field :: back ∧ field.1 ∉ Entries.keys back := by
  rw [EchoRecord.visibleHeaders, ← Entries.filter_ofList (fun name => !EchoRecord.isHidden name)] at h
  exact Entries.mem_ofList_iff.mp (List.mem_of_mem_filter h)

/-- The record names each visible spelling once, in the order in which they first came, with the value that
came last for it. Headers under a spelling of a hidden name change no part of the record. -/
theorem headers_visible_in_order (hrecord : EchoRecord.ofRequest arrival r = .ok record) :
    Entries.keys record.headers =
        ((Entries.keys r.headers).filter fun name =>
          ¬Text.SameName name "Host".toList ∧
            ¬Text.SameName name "Content-Length".toList).eraseDups ∧
      (∀ name value, (name, value) ∈ record.headers →
        ∃ front back, r.headers = front ++ (name, value) :: back ∧ name ∉ Entries.keys back) ∧
      ∀ more, AddsHidden r.headers more →
        EchoRecord.ofRequest arrival { r with headers := more } = .ok record := by
  rw [headers_of_ofRequest hrecord]
  refine ⟨keys_visibleHeaders r.headers, fun name value hfield => ?_, fun more hmore => ?_⟩
  · exact exists_last_of_mem_visibleHeaders hfield
  · rw [ofRequest_of_visibleHeaders_eq hmore.visibleHeaders_eq]
    exact hrecord

theorem headers_visible_in_order_repeated_spellings :
    ∃ r record,
      Request.parse (Text.toLatin1
        "GET / HTTP/1.1\r\nB: 1\r\nhOST: h\r\nA: 2\r\nb: 3\r\nB: 4\r\n\r\n".toList) = .ok r ∧
      EchoRecord.ofRequest ⟨"now".toList, "client".toList, [], []⟩ r = .ok record ∧
      Entries.keys record.headers = [['B'], ['A'], ['b']] ∧
      (['B'], ['4']) ∈ record.headers ∧
      EchoRecord.ofRequest ⟨"now".toList, "client".toList, [], []⟩
        { r with headers := ("CONTENT-LENGTH".toList, ['x']) :: r.headers } = .ok record := by
  refine ⟨⟨.get, ['/'], .http11,
    [(['B'], ['1']), ("hOST".toList, ['h']), (['A'], ['2']), (['b'], ['3']), (['B'], ['4'])], none⟩, _,
    by decide, rfl, ?_⟩
  obtain ⟨hnames, -, hmore⟩ := @headers_visible_in_order ⟨"now".toList, "client".toList, [], []⟩
    ⟨.get, ['/'], .http11,
      [(['B'], ['1']), ("hOST".toList, ['h']), (['A'], ['2']), (['b'], ['3']), (['B'], ['4'])], none⟩ _ rfl
  have hself : ∀ headers : Headers, AddsHidden headers headers := fun headers => by
    induction headers with
    | nil => exact .nil
    | cons field headers ih => exact .keep field ih
  refine ⟨hnames.trans (by decide), by decide, hmore _ (.add (Or.inr (by decide)) (hself _))⟩

end HttpEcho
