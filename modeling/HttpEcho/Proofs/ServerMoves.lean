import HttpEcho.Proofs.ReadLoop
import HttpEcho.Proofs.Routing
import HttpEcho.Server

/-!
# What a step does to the connections

The server moves when it accepts a connection, reads from it or leaves it. Every other step leaves alone
what the server is at, and a step changes what a client has sent or whether it has closed only if it is
that client's.
-/

namespace HttpEcho.Server

/-! ### Moves -/

inductive Move
  | accepts (visit : Nat)
  | reads (visit : Nat) (event : ReadEvent)
  | leaves (visit : Nat)
  deriving DecidableEq, Repr

def unreadOf (s : Server) (i : Nat) : Bytes := (s.visits[i]?.map Visit.unread).getD []

def closedOf (s : Server) (i : Nat) : Bool := (s.visits[i]?.map Visit.closed).getD false

/-- The connection that is being served, and how far its request is read. -/
def serving? (s : Server) : Option (Nat × Reader) :=
  match s.phase with
  | .serving i reader => some (i, reader)
  | _ => none

/-- What a read returns: the end of the stream if nothing is there. -/
def readEvent (unread : Bytes) (count : Nat) : ReadEvent :=
  if unread = [] then .closed else .piece (unread.take count)

/-- The move of the server that a step is. -/
def move? (s : Server) : Step → Option Move
  | .accept =>
    if s.phase = .accepting ∧ s.accepted < s.visits.length then some (.accepts s.accepted) else none
  | .read count =>
    s.serving?.map fun served => .reads served.1 (readEvent (s.unreadOf served.1) count)
  | .timeOut => s.serving?.map fun served => .reads served.1 (.timedOut s.stopping)
  | .answer => s.serving?.map fun served => .leaves served.1
  | _ => none

namespace Move

/-- What a move reads from a connection. -/
def readOf? (i : Nat) : Move → Option ReadEvent
  | .reads j event => if j = i then some event else none
  | _ => none

def bytesOf (i : Nat) (m : Move) : Bytes := (m.readOf? i).elim [] ReadEvent.bytes

theorem readOf?_eq_some_iff {i : Nat} {m : Move} {event : ReadEvent} :
    m.readOf? i = some event ↔ m = .reads i event := by
  cases m with
  | accepts j => simp [readOf?]
  | leaves j => simp [readOf?]
  | reads j other => simp [readOf?]

@[simp]
theorem bytesOf_reads (i j : Nat) (event : ReadEvent) :
    (reads j event).bytesOf i = if j = i then event.bytes else [] := by
  rw [bytesOf, readOf?]
  split <;> rfl

end Move

namespace Step

def isClient : Step → Bool
  | .connect _ | .send _ _ | .close _ => true
  | _ => false

def isStop : Step → Bool
  | .trigger | .interrupt => true
  | _ => false

/-- The bytes that a step sends on a connection. -/
def bytesOf (i : Nat) : Step → Bytes
  | .send j bytes => if j = i then bytes else []
  | _ => []

def arrival? : Step → Option Arrival
  | .connect arrival => some arrival
  | _ => none

end Step

/-! ### Inversion -/

variable {s t : Server} {i : Nat}

theorem serving?_eq_some_iff {reader : Reader} :
    s.serving? = some (i, reader) ↔ s.phase = .serving i reader := by
  unfold serving?
  split
  · next j other hphase => simp [hphase]
  · next hphase => simpa using hphase i reader

theorem check?_eq_some (h : s.check? = some t) :
    s.phase = .idle ∧
      ((s.stopping ∧ t = ({ s with phase := .stopped } : Server).record
          (Connection.listenerClosed s.address)) ∨
        (¬s.stopping ∧ t = { s with phase := .accepting })) := by
  unfold check? at h
  split at h
  · next hphase =>
    split at h
    · next hstop => exact ⟨hphase, Or.inl ⟨hstop, (Option.some.inj h).symm⟩⟩
    · next hstop => exact ⟨hphase, Or.inr ⟨hstop, (Option.some.inj h).symm⟩⟩
  · cases h

theorem accept?_eq_some (h : s.accept? = some t) :
    s.phase = .accepting ∧
      ((s.visits[s.accepted]? = none ∧ t = { s with phase := .idle }) ∨
        ∃ v, s.visits[s.accepted]? = some v ∧
          t = ({ s with phase := .serving s.accepted .start, accepted := s.accepted + 1 } : Server).record
            (Connection.opened v.arrival.peer)) := by
  unfold accept? at h
  split at h
  · next hphase =>
    split at h
    · next hvisit => exact ⟨hphase, Or.inl ⟨hvisit, (Option.some.inj h).symm⟩⟩
    · next v hvisit => exact ⟨hphase, Or.inr ⟨v, hvisit, (Option.some.inj h).symm⟩⟩
  · cases h

theorem read?_eq_some {count : Nat} (h : s.read? count = some t) :
    ∃ i buffer wanted v, s.phase = .serving i (.reading buffer wanted) ∧ s.visits[i]? = some v ∧
      ((v.unread = [] ∧ v.closed ∧
          t = { s with phase := .serving i ((Reader.reading buffer wanted).step .closed) }) ∨
        (v.unread ≠ [] ∧ 0 < count ∧
          t = ({ s with phase := .serving i ((Reader.reading buffer wanted).step
              (.piece (v.unread.take count))) } : Server).setVisit i
            { v with unread := v.unread.drop count })) := by
  unfold read? at h
  split at h
  · next i buffer wanted hphase =>
    split at h
    · cases h
    · next v hvisit =>
      refine ⟨i, buffer, wanted, v, hphase, hvisit, ?_⟩
      split at h
      · next hunread =>
        split at h
        · next hclosed => exact Or.inl ⟨hunread, hclosed, (Option.some.inj h).symm⟩
        · cases h
      · next hunread =>
        split at h
        · next hcount => exact Or.inr ⟨hunread, hcount.1, (Option.some.inj h).symm⟩
        · cases h
  · cases h

theorem timeOut?_eq_some (h : s.timeOut? = some t) :
    ∃ i buffer wanted v, s.phase = .serving i (.reading buffer wanted) ∧ s.visits[i]? = some v ∧
      t = { s with phase := .serving i ((Reader.reading buffer wanted).step (.timedOut s.stopping)) } := by
  unfold timeOut? at h
  split at h
  · next i buffer wanted hphase =>
    split at h
    · next arrival hvisit => exact ⟨i, buffer, wanted, _, hphase, hvisit, (Option.some.inj h).symm⟩
    · cases h
  · cases h

theorem answer?_eq_some (h : s.answer? = some t) :
    ∃ i reader v, s.phase = .serving i reader ∧ s.visits[i]? = some v ∧
      ((reader = .abandoned ∧
          t = ({ s with phase := .idle } : Server).record (Connection.abandoned v.arrival.peer)) ∨
        (reader = .finished [] ∧
          t = ({ s with phase := .idle } : Server).record (Connection.silent v.arrival.peer)) ∨
        ∃ raw, raw ≠ [] ∧ reader = .finished raw ∧
          t = { s with
            phase := .idle
            responses := s.responses ++ [(i, (Connection.answer v.arrival raw).response)]
            log := s.log ++ (Connection.answer v.arrival raw).log }) := by
  unfold answer? at h
  split at h
  · next i reader hphase =>
    split at h
    · cases h
    · cases h
    · next v hvisit =>
      exact ⟨i, _, v, hphase, hvisit, Or.inl ⟨rfl, (Option.some.inj h).symm⟩⟩
    · next v hvisit =>
      exact ⟨i, _, v, hphase, hvisit, Or.inr (Or.inl ⟨rfl, (Option.some.inj h).symm⟩)⟩
    · next v raw hne hvisit =>
      exact ⟨i, _, v, hphase, hvisit, Or.inr (Or.inr ⟨raw, hne, rfl, (Option.some.inj h).symm⟩)⟩
  · cases h

theorem send_eq_some {bytes : Bytes} (h : s.step? (.send i bytes) = some t) :
    ∃ v, s.visits[i]? = some v ∧ v.closed = false ∧
      t = s.setVisit i { v with unread := v.unread ++ bytes } := by
  simp only [step?] at h
  split at h
  · next arrival unread hvisit => exact ⟨_, hvisit, rfl, (Option.some.inj h).symm⟩
  · cases h

theorem close_eq_some (h : s.step? (.close i) = some t) :
    ∃ v, s.visits[i]? = some v ∧ t = s.setVisit i { v with closed := true } := by
  obtain ⟨v, hvisit, rfl⟩ := Option.map_eq_some_iff.mp h
  exact ⟨v, hvisit, rfl⟩

/-! ### What the clients see -/

theorem unreadOf_eq {v : Visit} (h : s.visits[i]? = some v) : s.unreadOf i = v.unread := by
  rw [unreadOf, h]
  rfl

theorem closedOf_eq {v : Visit} (h : s.visits[i]? = some v) : s.closedOf i = v.closed := by
  rw [closedOf, h]
  rfl

section Set

variable {v w : Visit} (h : s.visits[i]? = some v) (hset : t.visits = s.visits.set i w)

include h hset

theorem getElem?_of_set (j : Nat) : t.visits[j]? = if i = j then some w else s.visits[j]? := by
  have hlt : i < s.visits.length := (List.getElem?_eq_some_iff.mp h).1
  rw [hset, List.getElem?_set, if_pos hlt]

theorem unreadOf_of_set (j : Nat) : t.unreadOf j = if i = j then w.unread else s.unreadOf j := by
  rw [unreadOf, getElem?_of_set h hset]
  split <;> rfl

theorem closedOf_of_set (j : Nat) : t.closedOf j = if i = j then w.closed else s.closedOf j := by
  rw [closedOf, getElem?_of_set h hset]
  split <;> rfl

theorem arrivals_of_set (harrival : w.arrival = v.arrival) :
    t.visits.map Visit.arrival = s.visits.map Visit.arrival := by
  apply List.ext_getElem?
  intro j
  rw [List.getElem?_map, List.getElem?_map, getElem?_of_set h hset]
  split
  · next hij => rw [← hij, h, Option.map_some, Option.map_some, harrival]
  · rfl

end Set

section Serving

variable {reader : Reader} (hphase : s.phase = .serving i reader)

include hphase

theorem move?_read (count : Nat) :
    s.move? (.read count) = some (.reads i (readEvent (s.unreadOf i) count)) := by
  rw [move?, serving?_eq_some_iff.mpr hphase]
  rfl

theorem move?_timeOut : s.move? .timeOut = some (.reads i (.timedOut s.stopping)) := by
  rw [move?, serving?_eq_some_iff.mpr hphase]
  rfl

theorem move?_answer : s.move? .answer = some (.leaves i) := by
  rw [move?, serving?_eq_some_iff.mpr hphase]
  rfl

end Serving

theorem move?_accept_cases (s : Server) :
    s.move? .accept = none ∨ s.move? .accept = some (.accepts s.accepted) := by
  rw [move?]
  split
  · exact Or.inr rfl
  · exact Or.inl rfl

/-- What happens to the stream of a client in a step. -/
structure StreamStep (s t : Server) (step : Step) (i : Nat) : Prop where
  bytes : (s.move? step).elim [] (Move.bytesOf i) ++ t.unreadOf i = s.unreadOf i ++ step.bytesOf i
  closed_iff : t.closedOf i ↔ s.closedOf i ∨ step = .close i
  bytesOf_eq_nil : s.closedOf i → step.bytesOf i = []
  ended : s.move? step = some (.reads i .closed) → s.closedOf i ∧ s.unreadOf i = []
  arrivals : t.visits.map Visit.arrival = s.visits.map Visit.arrival ++ step.arrival?.toList

theorem StreamStep.of_visits_eq {step : Step} (hclient : step.isClient = false)
    (hvisits : t.visits = s.visits) (hmove : (s.move? step).elim [] (Move.bytesOf i) = [])
    (hend : s.move? step ≠ some (.reads i .closed)) : StreamStep s t step i := by
  have hnot : step.bytesOf i = [] ∧ step ≠ .close i ∧ step.arrival? = none := by
    cases step <;> simp_all [Step.isClient, Step.bytesOf, Step.arrival?]
  obtain ⟨hsend, hclose, harrival⟩ := hnot
  refine ⟨?_, ?_, fun _ => hsend, fun h => absurd h hend, ?_⟩
  · rw [hmove, hsend, List.nil_append, List.append_nil, unreadOf, unreadOf, hvisits]
  · simp [closedOf, hvisits, hclose]
  · rw [hvisits, harrival, Option.toList_none, List.append_nil]

/-- A connection that has just come and one that does not exist have the same stream. -/
theorem getD_getElem?_concat {β : Type} (f : Visit → β) (visits : List Visit) (v : Visit) (i : Nat) :
    ((visits ++ [v])[i]?.map f).getD (f v) = (visits[i]?.map f).getD (f v) := by
  rw [List.getElem?_append]
  split
  · rfl
  · next hle =>
    rw [List.getElem?_eq_none (Nat.not_lt.mp hle)]
    cases i - visits.length with
    | zero => rfl
    | succ n => rfl

theorem streamStep_send {bytes : Bytes} {j : Nat} (h : s.step? (.send j bytes) = some t) (i : Nat) :
    StreamStep s t (.send j bytes) i := by
  obtain ⟨v, hvisit, hopen, rfl⟩ := send_eq_some h
  refine ⟨?_, ?_, fun hclosed => ?_, fun hend => (by cases hend), ?_⟩
  · rw [unreadOf_of_set hvisit rfl]
    by_cases hij : j = i
    · subst hij
      simp [move?, Step.bytesOf, unreadOf_eq hvisit]
    · simp [move?, Step.bytesOf, hij]
  · rw [closedOf_of_set hvisit rfl]
    by_cases hij : j = i
    · subst hij
      simp [closedOf_eq hvisit]
    · simp [hij]
  · apply if_neg
    rintro rfl
    rw [closedOf_eq hvisit, hopen] at hclosed
    cases hclosed
  · rw [arrivals_of_set (w := { v with unread := v.unread ++ bytes }) hvisit rfl rfl]
    exact (List.append_nil _).symm

theorem streamStep_close {j : Nat} (h : s.step? (.close j) = some t) (i : Nat) :
    StreamStep s t (.close j) i := by
  obtain ⟨v, hvisit, rfl⟩ := close_eq_some h
  refine ⟨?_, ?_, fun _ => rfl, fun hend => (by cases hend), ?_⟩
  · rw [unreadOf_of_set hvisit rfl]
    by_cases hij : j = i
    · subst hij
      simp [move?, Step.bytesOf, unreadOf_eq hvisit]
    · simp [move?, Step.bytesOf, hij]
  · rw [closedOf_of_set hvisit rfl]
    by_cases hij : j = i
    · simp [hij]
    · simp [hij]
  · rw [arrivals_of_set (w := { v with closed := true }) hvisit rfl rfl]
    exact (List.append_nil _).symm

theorem streamStep_read {count : Nat} (h : s.step? (.read count) = some t) (i : Nat) :
    StreamStep s t (.read count) i := by
  obtain ⟨j, buffer, wanted, v, hphase, hvisit, hcases⟩ := read?_eq_some h
  have hmove := move?_read hphase count
  rw [unreadOf_eq hvisit, readEvent] at hmove
  rcases hcases with ⟨hunread, hclosed, rfl⟩ | ⟨hunread, hcount, rfl⟩
  · rw [if_pos hunread] at hmove
    refine ⟨?_, ?_, fun _ => rfl, fun hend => ?_, (List.append_nil _).symm⟩
    · simp [hmove, ReadEvent.bytes, Step.bytesOf, unreadOf]
    · simp [closedOf]
    · rw [hmove] at hend
      obtain rfl : j = i := (Move.reads.inj (Option.some.inj hend)).1
      rw [closedOf_eq hvisit, unreadOf_eq hvisit]
      exact ⟨hclosed, hunread⟩
  · rw [if_neg hunread] at hmove
    refine ⟨?_, ?_, fun _ => rfl, fun hend => ?_, ?_⟩
    · rw [hmove, unreadOf_of_set hvisit rfl]
      by_cases hij : j = i
      · subst hij
        simp [ReadEvent.bytes, Step.bytesOf, unreadOf_eq hvisit]
      · simp [Step.bytesOf, hij]
    · rw [closedOf_of_set hvisit rfl]
      by_cases hij : j = i
      · subst hij
        simp [closedOf_eq hvisit]
      · simp [hij]
    · rw [hmove] at hend
      cases hend
    · rw [arrivals_of_set (w := { v with unread := v.unread.drop count }) hvisit rfl rfl]
      exact (List.append_nil _).symm

theorem streamStep {step : Step} (h : s.step? step = some t) (i : Nat) : StreamStep s t step i := by
  cases step with
  | connect arrival =>
    obtain rfl := Option.some.inj h
    refine ⟨?_, ?_, fun _ => rfl, fun hend => (by cases hend), List.map_append⟩
    · have hunread := getD_getElem?_concat Visit.unread s.visits ⟨arrival, [], false⟩ i
      simpa [unreadOf, move?, Step.bytesOf] using hunread
    · have hclosed := getD_getElem?_concat Visit.closed s.visits ⟨arrival, [], false⟩ i
      simpa [closedOf] using congrArg (· = true) hclosed
  | send j bytes => exact streamStep_send h i
  | close j => exact streamStep_close h i
  | trigger =>
    obtain rfl := Option.some.inj h
    exact .of_visits_eq rfl rfl rfl (by simp [move?])
  | interrupt =>
    obtain rfl := Option.some.inj h
    exact .of_visits_eq rfl rfl rfl (by simp [move?])
  | check =>
    obtain ⟨-, ⟨-, rfl⟩ | ⟨-, rfl⟩⟩ := check?_eq_some h
    · exact .of_visits_eq rfl rfl rfl (by simp [move?])
    · exact .of_visits_eq rfl rfl rfl (by simp [move?])
  | accept =>
    have hvisits : t.visits = s.visits := by
      obtain ⟨-, ⟨-, rfl⟩ | ⟨v, -, rfl⟩⟩ := accept?_eq_some h
      · rfl
      · rfl
    rcases move?_accept_cases s with hmove | hmove
    · exact .of_visits_eq rfl hvisits (by rw [hmove]; rfl) (by simp [hmove])
    · exact .of_visits_eq rfl hvisits (by rw [hmove]; rfl) (by simp [hmove])
  | read count => exact streamStep_read h i
  | timeOut =>
    obtain ⟨j, buffer, wanted, v, hphase, hvisit, rfl⟩ := timeOut?_eq_some h
    have hmove := move?_timeOut hphase
    refine .of_visits_eq rfl rfl ?_ (by simp [hmove])
    simp [hmove, ReadEvent.bytes]
  | answer =>
    obtain ⟨j, reader, v, hphase, hvisit, hcases⟩ := answer?_eq_some h
    have hvisits : t.visits = s.visits := by
      rcases hcases with ⟨-, rfl⟩ | ⟨-, rfl⟩ | ⟨raw, -, -, rfl⟩
      · rfl
      · rfl
      · rfl
    have hmove := move?_answer hphase
    exact .of_visits_eq rfl hvisits (by rw [hmove]; rfl) (by simp [hmove])

theorem stopping_step {step : Step} (h : s.step? step = some t) :
    t.stopping = (s.stopping || step.isStop) := by
  cases step with
  | connect arrival =>
    obtain rfl := Option.some.inj h
    exact (Bool.or_false _).symm
  | send j bytes =>
    obtain ⟨v, -, -, rfl⟩ := send_eq_some h
    exact (Bool.or_false _).symm
  | close j =>
    obtain ⟨v, -, rfl⟩ := close_eq_some h
    exact (Bool.or_false _).symm
  | trigger =>
    obtain rfl := Option.some.inj h
    exact (Bool.or_true _).symm
  | interrupt =>
    obtain rfl := Option.some.inj h
    exact (Bool.or_true _).symm
  | check =>
    obtain ⟨-, ⟨-, rfl⟩ | ⟨-, rfl⟩⟩ := check?_eq_some h
    · exact (Bool.or_false _).symm
    · exact (Bool.or_false _).symm
  | accept =>
    obtain ⟨-, ⟨-, rfl⟩ | ⟨v, -, rfl⟩⟩ := accept?_eq_some h
    · exact (Bool.or_false _).symm
    · exact (Bool.or_false _).symm
  | read count =>
    obtain ⟨j, buffer, wanted, v, -, -, ⟨-, -, rfl⟩ | ⟨-, -, rfl⟩⟩ := read?_eq_some h
    · exact (Bool.or_false _).symm
    · exact (Bool.or_false _).symm
  | timeOut =>
    obtain ⟨j, buffer, wanted, v, -, -, rfl⟩ := timeOut?_eq_some h
    exact (Bool.or_false _).symm
  | answer =>
    obtain ⟨j, reader, v, -, -, ⟨-, rfl⟩ | ⟨-, rfl⟩ | ⟨raw, -, -, rfl⟩⟩ := answer?_eq_some h
    · exact (Bool.or_false _).symm
    · exact (Bool.or_false _).symm
    · exact (Bool.or_false _).symm

/-! ### What the server has done -/

/-- A line of the access log, which begins with a request line in quotes. -/
def isAccess (e : Log.Event) : Bool := e.source = .connections && e.message.head? = some '"'

def accessEvents (s : Server) : List Log.Event := s.log.filter isAccess

/-- A request with the connection that it came from. -/
structure Exchange where
  visit : Nat
  arrival : Arrival
  raw : Bytes
  deriving DecidableEq, Repr

namespace Exchange

def response (x : Exchange) : Response := (Connection.answer x.arrival x.raw).response

/-- The request line of a request that is accepted, and the first line of another one. -/
def requestLine (x : Exchange) : Text :=
  match Request.parse x.raw with
  | .ok r => r.line
  | .error _ => Connection.firstLine x.raw

def accessEvent (x : Exchange) : Log.Event := Connection.access x.requestLine x.response.status

end Exchange

/-- What is left to answer when the server stops reading: nothing if no byte came or if it gave up. -/
def exchange? (i : Nat) (arrival : Arrival) : Reader → Option Exchange
  | .finished (b :: raw) => some ⟨i, arrival, b :: raw⟩
  | _ => none

theorem source_route_log (arrival : Arrival) (r : Request) :
    ∀ e ∈ (Router.echo.route arrival r).log, e.source = .handlers := by
  obtain ⟨reply, hreply, hroute⟩ := exists_echoReply arrival r
  rw [hroute]
  cases hreply with
  | unsupported => exact List.forall_mem_nil _
  | options => exact List.forall_mem_nil _
  | record => exact List.forall_mem_nil _
  | noText hmethod herror hsource => exact List.forall_mem_singleton.mpr hsource

theorem filter_isAccess_answer (i : Nat) (arrival : Arrival) (raw : Bytes) :
    (Connection.answer arrival raw).log.filter isAccess = [Exchange.accessEvent ⟨i, arrival, raw⟩] := by
  have haccess : ∀ requestLine status, isAccess (Connection.access requestLine status) := by
    intro requestLine status
    rfl
  unfold Exchange.accessEvent Exchange.requestLine Exchange.response Connection.answer
  cases Request.parse raw with
  | ok r =>
    have hroute : (Router.echo.route arrival r).log.filter isAccess = [] := by
      rw [List.filter_eq_nil_iff]
      intro e he
      simp [isAccess, source_route_log arrival r e he]
    simp only [List.filter_append, hroute, List.nil_append]
    rw [List.filter_cons_of_pos (haccess _ _), List.filter_nil]
  | error e =>
    have hinvalid : isAccess (Connection.invalidRequest arrival.peer e.message) = false := rfl
    simp only []
    rw [List.filter_cons_of_neg (Bool.eq_false_iff.mp hinvalid), List.filter_cons_of_pos (haccess _ _),
      List.filter_nil]

/-- A step sends the response of an exchange, if there is one, and logs it. -/
structure Completes (s t : Server) (x : Option Exchange) : Prop where
  responses_eq : t.responses = s.responses ++ x.toList.map fun x => (x.visit, x.response)
  accessEvents_eq : t.accessEvents = s.accessEvents ++ x.toList.map Exchange.accessEvent

theorem Completes.of_record {e : Log.Event} (he : isAccess e = false)
    (hresponses : t.responses = s.responses) (hlog : t.log = s.log ++ [e]) : Completes s t none where
  responses_eq := by rw [hresponses, Option.toList_none, List.map_nil, List.append_nil]
  accessEvents_eq := by
    rw [accessEvents, accessEvents, hlog, List.filter_append,
      List.filter_cons_of_neg (Bool.eq_false_iff.mp he)]
    rfl

theorem Completes.of_log_eq (hresponses : t.responses = s.responses) (hlog : t.log = s.log) :
    Completes s t none where
  responses_eq := by rw [hresponses, Option.toList_none, List.map_nil, List.append_nil]
  accessEvents_eq := by
    rw [accessEvents, accessEvents, hlog, Option.toList_none, List.map_nil, List.append_nil]

theorem Completes.eq_of_none (h : Completes s t none) :
    t.responses = s.responses ∧ t.accessEvents = s.accessEvents := by
  have hresponses := h.responses_eq
  have haccess := h.accessEvents_eq
  rw [Option.toList_none, List.map_nil, List.append_nil] at hresponses haccess
  exact ⟨hresponses, haccess⟩

/-- What a move makes of the connection that is being served. -/
def MoveStep (s t : Server) : Option Move → Prop
  | none => t.serving? = s.serving? ∧ t.accepted = s.accepted ∧ Completes s t none
  | some (.accepts i) =>
    s.serving? = none ∧ i = s.accepted ∧ s.accepted < s.visits.length ∧
      t.serving? = some (i, .start) ∧ t.accepted = i + 1 ∧ Completes s t none
  | some (.reads i event) =>
    ∃ buffer wanted, s.serving? = some (i, .reading buffer wanted) ∧ event ≠ .piece [] ∧
      t.serving? = some (i, (Reader.reading buffer wanted).step event) ∧
      t.accepted = s.accepted ∧ Completes s t none
  | some (.leaves i) =>
    ∃ reader v, s.serving? = some (i, reader) ∧ s.visits[i]? = some v ∧
      (∀ buffer wanted, reader ≠ .reading buffer wanted) ∧ t.serving? = none ∧
      t.accepted = s.accepted ∧ Completes s t (exchange? i v.arrival reader)

theorem moveStep_of_outside {step : Step} (hmove : s.move? step = none) (hphase : t.phase = s.phase)
    (haccepted : t.accepted = s.accepted) (hcompletes : Completes s t none) :
    MoveStep s t (s.move? step) := by
  rw [hmove]
  refine ⟨?_, haccepted, hcompletes⟩
  rw [serving?, serving?, hphase]

theorem moveStep {step : Step} (h : s.step? step = some t) : MoveStep s t (s.move? step) := by
  cases step with
  | connect arrival =>
    obtain rfl := Option.some.inj h
    exact moveStep_of_outside rfl rfl rfl (.of_log_eq rfl rfl)
  | send i bytes =>
    obtain ⟨v, -, -, rfl⟩ := send_eq_some h
    exact moveStep_of_outside rfl rfl rfl (.of_log_eq rfl rfl)
  | close i =>
    obtain ⟨v, -, rfl⟩ := close_eq_some h
    exact moveStep_of_outside rfl rfl rfl (.of_log_eq rfl rfl)
  | trigger =>
    obtain rfl := Option.some.inj h
    exact moveStep_of_outside rfl rfl rfl (.of_log_eq rfl rfl)
  | interrupt =>
    obtain rfl := Option.some.inj h
    exact moveStep_of_outside rfl rfl rfl (.of_record (by decide) rfl rfl)
  | check =>
    obtain ⟨hphase, ⟨-, rfl⟩ | ⟨-, rfl⟩⟩ := check?_eq_some h
    · refine ⟨?_, rfl, .of_record rfl rfl rfl⟩
      rw [serving?, serving?, hphase]
      rfl
    · refine ⟨?_, rfl, .of_log_eq rfl rfl⟩
      rw [serving?, serving?, hphase]
  | accept =>
    obtain ⟨hphase, ⟨hvisit, rfl⟩ | ⟨v, hvisit, rfl⟩⟩ := accept?_eq_some h
    · have hmove : s.move? .accept = none := by
        rw [move?, if_neg]
        rintro ⟨-, hlt⟩
        exact absurd hvisit (by simpa using hlt)
      rw [hmove]
      refine ⟨?_, rfl, .of_log_eq rfl rfl⟩
      rw [serving?, serving?, hphase]
    · have hlt := (List.getElem?_eq_some_iff.mp hvisit).1
      rw [move?, if_pos ⟨hphase, hlt⟩]
      refine ⟨?_, rfl, hlt, rfl, rfl, .of_record rfl rfl rfl⟩
      rw [serving?, hphase]
  | read count =>
    obtain ⟨i, buffer, wanted, v, hphase, hvisit, hcases⟩ := read?_eq_some h
    rw [move?_read hphase, unreadOf_eq hvisit, readEvent]
    rcases hcases with ⟨hunread, hclosed, rfl⟩ | ⟨hunread, hcount, rfl⟩
    · rw [if_pos hunread]
      exact ⟨buffer, wanted, serving?_eq_some_iff.mpr hphase, by simp, rfl, rfl, .of_log_eq rfl rfl⟩
    · rw [if_neg hunread]
      refine ⟨buffer, wanted, serving?_eq_some_iff.mpr hphase, ?_, rfl, rfl, .of_log_eq rfl rfl⟩
      simpa [hunread] using Nat.ne_of_gt hcount
  | timeOut =>
    obtain ⟨i, buffer, wanted, v, hphase, hvisit, rfl⟩ := timeOut?_eq_some h
    rw [move?_timeOut hphase]
    exact ⟨buffer, wanted, serving?_eq_some_iff.mpr hphase, by simp, rfl, rfl, .of_log_eq rfl rfl⟩
  | answer =>
    obtain ⟨i, reader, v, hphase, hvisit, hcases⟩ := answer?_eq_some h
    rw [move?_answer hphase]
    rcases hcases with ⟨rfl, rfl⟩ | ⟨rfl, rfl⟩ | ⟨raw, hraw, rfl, rfl⟩
    · exact ⟨_, v, serving?_eq_some_iff.mpr hphase, hvisit, by simp, rfl, rfl, .of_record rfl rfl rfl⟩
    · exact ⟨_, v, serving?_eq_some_iff.mpr hphase, hvisit, by simp, rfl, rfl, .of_record rfl rfl rfl⟩
    · refine ⟨_, v, serving?_eq_some_iff.mpr hphase, hvisit, by simp, rfl, rfl, ?_⟩
      obtain ⟨b, rest, rfl⟩ := List.exists_cons_of_ne_nil hraw
      refine ⟨rfl, ?_⟩
      rw [accessEvents, List.filter_append, filter_isAccess_answer i]
      rfl

end HttpEcho.Server
