import HttpEcho.Proofs.HeaderMap
import HttpEcho.Router

/-!
# How responses are built

A response begins empty, as a document or as an error, and then gets headers and bodies in any order. Of
its headers only the order in which they were set counts, and of its bodies only the last one.
-/

namespace HttpEcho.Response

inductive Origin
  | new (status : Status)
  | json (body : Text)
  | prettyJson (v : Json)
  | error (status : Status) (message : Text)

inductive Call
  | setHeader (name value : Text)
  | withBody (body : Text)
  | withCrossOrigin
  | withCommonHeaders (date : Text)

def Origin.response : Origin → Response
  | new status => .new status
  | json body => .json body
  | prettyJson v => .prettyJson v
  | error status message => .error status message

def Call.apply : Call → Response → Response
  | setHeader name value, r => r.setHeader name value
  | withBody body, r => r.withBody body
  | withCrossOrigin, r => r.withCrossOrigin
  | withCommonHeaders date, r => r.withCommonHeaders date

def build (origin : Origin) (calls : List Call) : Response :=
  calls.foldl (fun r call => call.apply r) origin.response

def IsBuilt (r : Response) : Prop := ∃ origin calls, r = build origin calls

/-! ### What the calls set -/

def crossOriginHeaders : Headers :=
  [("Access-Control-Allow-Origin".toList, ['*']),
    ("Access-Control-Allow-Methods".toList, allowedMethods),
    ("Access-Control-Allow-Headers".toList, ['*'])]

/-- The headers that the router sets, in its order. -/
def commonHeaders (date : Text) : Headers :=
  [("Server".toList, serverName), ("Date".toList, date)] ++ crossOriginHeaders ++
    [("Connection".toList, "close".toList)]

def typeHeader : Text × Text := ("Content-Type".toList, "application/json".toList)

def Origin.status : Origin → Status
  | new status | error status _ => status
  | json _ | prettyJson _ => .ok

def Origin.body : Origin → Text
  | new _ => []
  | json body => body
  | prettyJson v => v.pretty
  | error _ message => (errorBody message).compact

def Origin.headers : Origin → Headers
  | new _ => []
  | json _ | prettyJson _ | error _ _ => [typeHeader]

/-- The headers that a call sets, in order. -/
def Call.headers : Call → Headers
  | setHeader name value => [(name, value)]
  | withBody _ => []
  | withCrossOrigin => crossOriginHeaders
  | withCommonHeaders date => commonHeaders date

def Call.body? : Call → Option Text
  | withBody body => some body
  | _ => none

/-- All headers that are set on the way to a response, in order. -/
def headersSet (origin : Origin) (calls : List Call) : Headers :=
  origin.headers ++ calls.flatMap Call.headers

/-- A call sets its headers and its body, and keeps all else. -/
theorem Call.apply_eq (call : Call) (r : Response) :
    call.apply r = ⟨r.status, r.headers.setAll call.headers, (call.body?.map Text.utf8).getD r.body⟩ := by
  cases call <;> rfl

theorem Origin.response_eq (origin : Origin) :
    origin.response = ⟨origin.status, Headers.setAll [] origin.headers, Text.utf8 origin.body⟩ := by
  cases origin <;> rfl

theorem build_concat (origin : Origin) (calls : List Call) (call : Call) :
    build origin (calls ++ [call]) = call.apply (build origin calls) := by
  rw [build, List.foldl_append]
  rfl

theorem build_eq (origin : Origin) (calls : List Call) :
    build origin calls = ⟨origin.status, Headers.setAll [] (headersSet origin calls),
      Text.utf8 ((calls.filterMap Call.body?).getLast?.getD origin.body)⟩ := by
  induction calls using List.reverseRecOn with
  | nil =>
    rw [headersSet, List.flatMap_nil, List.append_nil]
    exact origin.response_eq
  | append_singleton calls call ih =>
    have hheaders : headersSet origin (calls ++ [call]) = headersSet origin calls ++ call.headers := by
      simp [headersSet]
    have hbody : Text.utf8 (((calls ++ [call]).filterMap Call.body?).getLast?.getD origin.body) =
        (call.body?.map Text.utf8).getD
          (Text.utf8 ((calls.filterMap Call.body?).getLast?.getD origin.body)) := by
      cases hcall : call.body? <;> simp [hcall]
    rw [build_concat, Call.apply_eq, ih, hheaders, Headers.setAll_append, hbody]

theorem IsBuilt.distinct {r : Response} (h : r.IsBuilt) : r.headers.Distinct := by
  obtain ⟨origin, calls, rfl⟩ := h
  rw [build_eq]
  exact Headers.Distinct.setAll List.Pairwise.nil _

/-- The headers of a response are a map from names, taken without regard to ASCII case, to the values that
were set last. A name stays where and as it first came, and headers, status and body do not interfere. -/
theorem build_headers (origin : Origin) (calls : List Call) :
    let r := build origin calls
    let given := headersSet origin calls
    r.headers.Pairwise (fun a b => ¬Text.SameName a.1 b.1) ∧
      (∀ name, r.header name = given.last? name) ∧
      Entries.keys r.headers = Headers.firstSpellings (Entries.keys given) ∧
      (∀ more, Entries.keys r.headers <+: Entries.keys (build origin (calls ++ more)).headers) ∧
      (∀ body, (build origin (calls ++ [.withBody body])).headers = r.headers) ∧
      r.status = origin.status ∧
      r.body = Text.utf8 ((calls.filterMap Call.body?).getLast?.getD origin.body) := by
  intro r given
  have hr : r = ⟨origin.status, Headers.setAll [] given,
      Text.utf8 ((calls.filterMap Call.body?).getLast?.getD origin.body)⟩ := build_eq origin calls
  have hkeys : ∀ all, Entries.keys (build origin all).headers =
      Headers.firstSpellings (Entries.keys (headersSet origin all)) := by
    intro all
    rw [build_eq, Headers.keys_setAll_nil]
  refine ⟨IsBuilt.distinct ⟨origin, calls, rfl⟩, fun name => ?_, hkeys calls, fun more => ?_,
    fun body => ?_, ?_, ?_⟩
  · rw [hr, header, Headers.first?_setAll]
    exact Option.or_none
  · have hmore : headersSet origin (calls ++ more) = given ++ more.flatMap Call.headers := by
      simp [given, headersSet]
    rw [hkeys, hkeys, hmore, Entries.keys, Entries.keys, List.map_append]
    exact Headers.firstSpellings_isPrefix _ _
  · rw [build_concat, Call.apply, withBody]
  · rw [hr]
  · rw [hr]

/-- Letters beyond ASCII are different names in their two cases. -/
example :
    (build (.json "{}".toList) [.setHeader "x-É".toList ['1'], .setHeader "x-é".toList ['2'],
        .setHeader "X-É".toList ['3'], .setHeader "CONTENT-TYPE".toList "text/plain".toList]).headers =
      [("Content-Type".toList, "text/plain".toList), ("x-É".toList, ['3']), ("x-é".toList, ['2'])] := by
  decide

end HttpEcho.Response
