import HttpEcho.Echo.Handlers
import HttpEcho.Proofs.JsonReader
import HttpEcho.Proofs.JsonText
import HttpEcho.Proofs.Utf8

/-!
# The client reads back the record

The answer of the echo service is the record of the request as JSON. No key of it comes twice, and it
nests one level deeper than the body, so reading it gives back the record exactly.
-/

namespace HttpEcho

open Json

/-! ### Bodies -/

theorem decodeBody_utf8_render {v : Json} (h : Exact maxDepth v) (layout : Layout) :
    decodeBody (some (Text.utf8 (render layout 0 v))) = .ok v := by
  simp only [decodeBody, Text.ofUtf8_utf8, ofText?_render h, Option.getD_some]

theorem wellFormed_of_decodeBody {body : Option Bytes} {v : Json} (h : decodeBody body = .ok v) :
    v.WellFormed := by
  unfold decodeBody at h
  split at h
  · obtain rfl := Except.ok.inj h
    exact .null
  split at h
  · cases h
  · next t _ =>
    obtain rfl := Except.ok.inj h
    cases hread : ofText? t with
    | none => exact .str t
    | some v => exact wellFormed_of_ofText? hread

/-! ### The record -/

theorem nodup_keys_query (r : Request) : (Entries.keys r.query).Nodup :=
  Entries.nodup_keys_group _

theorem nodup_keys_visibleHeaders (headers : Headers) :
    (Entries.keys (EchoRecord.visibleHeaders headers)).Nodup :=
  Entries.nodup_keys_ofList _

theorem exact_obj_map {β : Type} {d : Nat} {f : β → Json} (hf : ∀ value, Exact d (f value))
    {entries : Entries Text β} (hkeys : (Entries.keys entries).Nodup) :
    Exact (d + 1) (.obj (entries.map fun entry => (entry.1, f entry.2))) := by
  refine .obj ?_ ?_
  · rw [Entries.keys, List.map_map]
    exact hkeys
  · intro m hm
    obtain ⟨entry, -, rfl⟩ := List.mem_map.mp hm
    exact hf entry.2

/-- The record nests one level deeper than the body, and no less than the query parameters. -/
theorem EchoRecord.exact_toJson {record : EchoRecord} {d : Nat}
    (hquery : (Entries.keys record.query).Nodup) (hheaders : (Entries.keys record.headers).Nodup)
    (hbody : Exact (d + 2) record.body) : Exact (d + 3) record.toJson := by
  have hvalues : ∀ values : List Text, Exact (d + 1) (.arr (values.map .str)) := by
    intro values
    apply Exact.arr
    intro v hv
    obtain ⟨s, -, rfl⟩ := List.mem_map.mp hv
    exact .str d s
  have hkeys : ["timestamp".toList, "method".toList, "path".toList, "query_params".toList,
      "headers".toList, "body".toList, "client_address".toList].Nodup := by
    decide
  refine .obj hkeys ?_
  simp only [List.forall_mem_cons, List.not_mem_nil, false_implies, implies_true, and_true]
  exact ⟨.str _ _, .str _ _, .str _ _, exact_obj_map hvalues hquery,
    exact_obj_map (fun value => .str _ value) hheaders, hbody, .str _ _⟩

/-- A request whose body holds no float and leaves one level of nesting to the record is answered with
its record, and reading the answer gives the record's seven members in order and unchanged. -/
theorem decodeBody_echo (arrival : Arrival) {r : Request} {v : Json}
    (hbody : decodeBody r.body = .ok v) (hfloat : v.hasFloat = false) (hdepth : v.depth ≤ 126) :
    (Handler.echo arrival r).response.status = .ok ∧
      ∃ record, EchoRecord.ofRequest arrival r = .ok record ∧ record.body = v ∧
        decodeBody (some (Handler.echo arrival r).response.body) = .ok (.obj [
          ("timestamp".toList, .str record.timestamp),
          ("method".toList, .str record.method.text),
          ("path".toList, .str record.path),
          ("query_params".toList, .obj (record.query.map fun (k, vs) => (k, .arr (vs.map .str)))),
          ("headers".toList, .obj (record.headers.map fun (k, value) => (k, .str value))),
          ("body".toList, v),
          ("client_address".toList, .str record.clientAddress)]) := by
  obtain ⟨record, hrecord, hquery, hheaders, rfl⟩ : ∃ record,
      EchoRecord.ofRequest arrival r = .ok record ∧ (Entries.keys record.query).Nodup ∧
        (Entries.keys record.headers).Nodup ∧ record.body = v := by
    rw [EchoRecord.ofRequest, hbody]
    exact ⟨_, rfl, nodup_keys_query r, nodup_keys_visibleHeaders r.headers, rfl⟩
  have hvalue : Exact (124 + 2) record.body := (wellFormed_of_decodeBody hbody).exact hfloat hdepth
  have hexact : Exact maxDepth record.toJson := EchoRecord.exact_toJson hquery hheaders hvalue
  rw [Handler.echo, hrecord]
  exact ⟨rfl, record, rfl, rfl, decodeBody_utf8_render hexact .pretty⟩

def exampleValue : Json :=
  .obj [("k\n".toList, .arr [.null, .int (-1), .int 18446744073709551615, .obj []])]

/-- A header and a parameter that come twice, a character above ASCII and an escaped one. -/
def exampleRequest : Request where
  method := .post
  target := "/a%20b?x=1&y=2&x=%22".toList
  version := .http11
  headers := [("X-Tag".toList, ['1']), ("Host".toList, ['h']), ("X-Tag".toList, "\u00FF".toList)]
  body := some (Text.utf8 "\x7b\"k\\n\":[null,-1,18446744073709551615,\x7b\x7d]\x7d".toList)

theorem decodeBody_exampleRequest : decodeBody exampleRequest.body = .ok exampleValue := by
  have hexact : Exact maxDepth exampleValue := by
    refine .obj (by decide) ?_
    simp only [List.forall_mem_singleton]
    refine .arr ?_
    simp only [List.forall_mem_cons, List.not_mem_nil, false_implies, implies_true, and_true]
    exact ⟨.null _, .int _ (by decide), .int _ (by decide), .obj (by decide) (by simp)⟩
  exact decodeBody_utf8_render hexact .compact

theorem decodeBody_echo_repeated_names :
    decodeBody (some
        (Handler.echo ⟨"now".toList, "client".toList, [], []⟩ exampleRequest).response.body) =
      .ok (.obj [
        ("timestamp".toList, .str "now".toList),
        ("method".toList, .str "POST".toList),
        ("path".toList, .str "/a b".toList),
        ("query_params".toList,
          .obj [(['x'], .arr [.str ['1'], .str ['"']]), (['y'], .arr [.str ['2']])]),
        ("headers".toList, .obj [("X-Tag".toList, .str "\u00FF".toList)]),
        ("body".toList, exampleValue),
        ("client_address".toList, .str "client".toList)]) := by
  obtain ⟨-, record, hrecord, -, hread⟩ := decodeBody_echo ⟨"now".toList, "client".toList, [], []⟩
    decodeBody_exampleRequest rfl (by decide)
  rw [EchoRecord.ofRequest, decodeBody_exampleRequest] at hrecord
  obtain rfl := Except.ok.inj hrecord
  rw [hread]
  rfl

end HttpEcho
