import HttpEcho.Echo.Handlers
import HttpEcho.Proofs.ResponseBuilding

/-!
# What a router answers

Of the handlers registered for a method the last one answers, and what it answers gets the common
headers. They win over those of a handler, which only keep their place and their spelling.
-/

namespace HttpEcho

/-! ### Which handler answers -/

namespace Router

variable {registrations : List (Method × Handler)} {m : Method}

def ofRegistrations (registrations : List (Method × Handler)) : Router :=
  registrations.foldl (fun router registration => router.register registration.1 registration.2) .empty

def lastRegistered? (registrations : List (Method × Handler)) (m : Method) : Option Handler :=
  (Entries.valuesOf m registrations).getLast?

theorem routes_ofRegistrations (registrations : List (Method × Handler)) :
    (ofRegistrations registrations).routes = Entries.ofList registrations := by
  induction registrations using List.reverseRecOn with
  | nil => rfl
  | append_singleton registrations registration ih =>
    rw [ofRegistrations, List.foldl_append, ← ofRegistrations, Entries.ofList_concat, ← ih]
    rfl

theorem handler?_ofRegistrations (registrations : List (Method × Handler)) (m : Method) :
    (ofRegistrations registrations).handler? m = lastRegistered? registrations m := by
  rw [handler?, routes_ofRegistrations, Entries.get?_ofList, lastRegistered?]

theorem mem_of_lastRegistered? {handler : Handler} (h : lastRegistered? registrations m = some handler) :
    (m, handler) ∈ registrations := by
  obtain ⟨⟨m', handler'⟩, hmem, rfl⟩ := List.mem_map.mp (List.mem_of_getLast? h)
  obtain ⟨hmem, hm⟩ := List.mem_filter.mp hmem
  exact of_decide_eq_true hm ▸ hmem

/-- The answer of the last handler for the method, or that there is none. -/
def replyOf (registrations : List (Method × Handler)) (arrival : Arrival) (r : Request) : Reply :=
  (lastRegistered? registrations r.method).elim (.quiet (.unsupported r.method)) fun handler =>
    handler arrival r

theorem route_ofRegistrations (registrations : List (Method × Handler)) (arrival : Arrival)
    (r : Request) :
    ((ofRegistrations registrations).route arrival r).response =
      (replyOf registrations arrival r).response.withCommonHeaders arrival.date := by
  rw [route, handler?_ofRegistrations, replyOf]
  cases lastRegistered? registrations r.method <;> rfl

end Router

/-! ### The common headers -/

namespace Response

/-- What the common headers make of a response. -/
structure GainsCommonHeaders (date : Text) (before after : Response) : Prop where
  status_eq : after.status = before.status
  body_eq : after.body = before.body
  /-- A header that is there keeps its place and its spelling, and the others come at the end. -/
  headers_eq : after.headers = before.headers.withValues (commonHeaders date) ++
    (commonHeaders date).filter fun field => (before.headers.first? field.1).isNone
  /-- Each is there once, with the router's value. -/
  filter_eq : ∀ field ∈ commonHeaders date, ∃ name, Text.SameName name field.1 ∧
    after.headers.filter (fun other => Text.SameName other.1 field.1) = [(name, field.2)]
  others_eq : after.headers.filter (fun field => ((commonHeaders date).first? field.1).isNone) =
    before.headers.filter fun field => ((commonHeaders date).first? field.1).isNone

theorem distinct_commonHeaders (date : Text) : (commonHeaders date).Distinct := by
  have hkeys : Entries.keys (commonHeaders date) = Entries.keys (commonHeaders []) := rfl
  rw [Headers.distinct_iff_keys, hkeys]
  decide

theorem withCommonHeaders_eq (date : Text) (r : Response) :
    r.withCommonHeaders date = { r with headers := r.headers.setAll (commonHeaders date) } :=
  Call.apply_eq (.withCommonHeaders date) r

theorem IsBuilt.gainsCommonHeaders {r : Response} (h : r.IsBuilt) (date : Text) :
    GainsCommonHeaders date r (r.withCommonHeaders date) := by
  have hcommon := distinct_commonHeaders date
  rw [withCommonHeaders_eq]
  refine ⟨rfl, rfl, h.distinct.setAll_eq hcommon, fun field hfield => ?_,
    h.distinct.filter_setAll hcommon⟩
  apply (h.distinct.setAll (commonHeaders date)).filter_sameName
  rw [Headers.first?_setAll, hcommon.last?_of_mem hfield, Option.some_or]

theorem withCommonHeaders_twice (date : Text) (r : Response) :
    (r.withCommonHeaders date).withCommonHeaders date = r.withCommonHeaders date := by
  simp only [withCommonHeaders_eq, Headers.setAll_setAll (distinct_commonHeaders date)]

end Response

/-! ### What is answered -/

open Router in
theorem isBuilt_replyOf {registrations : List (Method × Handler)}
    (hbuilt : ∀ registration ∈ registrations, ∀ arrival r, (registration.2 arrival r).response.IsBuilt)
    (arrival : Arrival) (r : Request) : (replyOf registrations arrival r).response.IsBuilt := by
  rw [replyOf]
  cases hlast : lastRegistered? registrations r.method with
  | none => exact ⟨.error .notImplemented (RequestError.unsupportedMethodMessage r.method.text), [], rfl⟩
  | some handler => exact hbuilt _ (mem_of_lastRegistered? hlast) arrival r

/-- A request is answered by the handler that was registered last for its method, or by an error if there
is none, and the answer gets the common headers, which once there stay as they are. -/
theorem gainsCommonHeaders_route {registrations : List (Method × Handler)}
    (hbuilt : ∀ registration ∈ registrations, ∀ arrival r, (registration.2 arrival r).response.IsBuilt)
    (arrival : Arrival) (r : Request) :
    Response.GainsCommonHeaders arrival.date (Router.replyOf registrations arrival r).response
        ((Router.ofRegistrations registrations).route arrival r).response ∧
      ∀ date (other : Response), (other.withCommonHeaders date).withCommonHeaders date =
        other.withCommonHeaders date := by
  rw [Router.route_ofRegistrations]
  exact ⟨(isBuilt_replyOf hbuilt arrival r).gainsCommonHeaders arrival.date,
    Response.withCommonHeaders_twice⟩

theorem isBuilt_echo (arrival : Arrival) (r : Request) : (Handler.echo arrival r).response.IsBuilt := by
  rw [Handler.echo]
  cases EchoRecord.ofRequest arrival r with
  | ok record => exact ⟨.prettyJson record.toJson, [], rfl⟩
  | error e => exact ⟨.error .badRequest e.message, [], rfl⟩

/-- A handler that sets some of the common headers itself, in its own spelling. -/
def clashingHandler : Handler := fun _ r => .quiet <|
  Response.build (.error .internalServerError r.path)
    [.setHeader "connection".toList "keep-alive".toList, .setHeader "X-Own".toList [],
      .setHeader "SERVER".toList "own".toList]

theorem gainsCommonHeaders_route_clashingHandler :
    let registrations := [(.get, clashingHandler), (.post, .echo), (.get, .echo), (.post, clashingHandler)]
    let arrival : Arrival := ⟨"now".toList, "client".toList, "client:1".toList, "today".toList⟩
    let r : Request := ⟨.post, ['/'], .http11, [], none⟩
    (∀ registration ∈ registrations, ∀ arrival r, (registration.2 arrival r).response.IsBuilt) ∧
      Response.GainsCommonHeaders arrival.date (clashingHandler arrival r).response
        ((Router.ofRegistrations registrations).route arrival r).response ∧
      ((Router.ofRegistrations registrations).route arrival r).response.headers =
        [Response.typeHeader, ("connection".toList, "close".toList), ("X-Own".toList, []),
          ("SERVER".toList, Response.serverName), ("Date".toList, "today".toList)] ++
            Response.crossOriginHeaders := by
  intro registrations arrival r
  have hclashing : ∀ arrival r, (clashingHandler arrival r).response.IsBuilt := fun _ _ =>
    ⟨_, _, rfl⟩
  have hbuilt : ∀ registration ∈ registrations, ∀ arrival r,
      (registration.2 arrival r).response.IsBuilt := by
    simp only [registrations, List.forall_mem_cons]
    exact ⟨hclashing, isBuilt_echo, isBuilt_echo, hclashing, List.forall_mem_nil _⟩
  exact ⟨hbuilt, (gainsCommonHeaders_route hbuilt arrival r).1, rfl⟩

end HttpEcho
