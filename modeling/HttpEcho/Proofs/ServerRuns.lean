import HttpEcho.Proofs.ServerMoves

/-!
# Runs of the server

However the steps of clients, triggers and the server are mixed, the server serves one connection after
the other in the order in which they came. What it answers depends on that connection alone, each answer
is logged once, and after a trigger at most one more connection is accepted.
-/

namespace HttpEcho.Server

/-! ### What a run leaves behind -/

/-- The moves of the server in a run. -/
def moves (s : Server) : List Step → List Move
  | [] => []
  | step :: steps => (s.move? step).toList ++ (s.step? step).elim [] fun t => t.moves steps

/-- What the moves read from a connection. -/
def readsOf (i : Nat) (ms : List Move) : List ReadEvent := ms.filterMap (Move.readOf? i)

def arrivals (steps : List Step) : List Arrival := steps.filterMap Step.arrival?

/-- The bytes that a client has sent. -/
def sentBy (i : Nat) (steps : List Step) : Bytes := steps.flatMap (Step.bytesOf i)

def HasStop (steps : List Step) : Prop := steps.any Step.isStop

variable {start s t : Server} {steps : List Step} {step : Step} {i : Nat}

theorem run?_concat_eq_some_iff :
    start.run? (steps ++ [step]) = some t ↔ ∃ s, start.run? steps = some s ∧ s.step? step = some t := by
  rw [run?, List.foldlM_append]
  simp only [List.foldlM_cons, List.foldlM_nil, bind_pure, Option.bind_eq_bind, Option.bind_eq_some_iff]
  rfl

/-- What holds at the start and is kept by each step holds after a run. -/
@[elab_as_elim]
theorem run_induction {motive : ∀ steps s, start.run? steps = some s → Prop} (nil : motive [] start rfl)
    (concat : ∀ steps step s t (hrun : start.run? steps = some s) (hstep : s.step? step = some t),
      motive steps s hrun →
        motive (steps ++ [step]) t (run?_concat_eq_some_iff.mpr ⟨s, hrun, hstep⟩))
    {steps : List Step} {s : Server} (hrun : start.run? steps = some s) : motive steps s hrun := by
  induction steps using List.reverseRecOn generalizing s with
  | nil =>
    obtain rfl := Option.some.inj hrun
    exact nil
  | append_singleton steps step ih =>
    obtain ⟨r, hr, hs⟩ := run?_concat_eq_some_iff.mp hrun
    exact concat steps step r s hr hs (ih hr)

theorem moves_concat (hrun : start.run? steps = some s) (hstep : s.step? step = some t) :
    start.moves (steps ++ [step]) = start.moves steps ++ (s.move? step).toList := by
  induction steps generalizing start with
  | nil =>
    obtain rfl := Option.some.inj hrun
    simp [moves, hstep]
  | cons first steps ih =>
    obtain ⟨r, hfirst, hrest⟩ := Option.bind_eq_some_iff.mp hrun
    simp only [List.cons_append, moves, hfirst, Option.elim_some, ih hrest, List.append_assoc]

theorem readsOf_append (i : Nat) (ms more : List Move) :
    readsOf i (ms ++ more) = readsOf i ms ++ readsOf i more := List.filterMap_append

theorem readsOf_toList (i : Nat) (m : Option Move) :
    readsOf i m.toList = (m.bind (Move.readOf? i)).toList := by
  cases m with
  | none => rfl
  | some m =>
    rw [Option.toList_some, readsOf, Option.bind_some]
    cases h : m.readOf? i with
    | none => rw [List.filterMap_cons_none h]; rfl
    | some event => rw [List.filterMap_cons_some h]; rfl

/-! ### Streams -/

theorem flatMap_bytes_toList (i : Nat) (m : Option Move) :
    (m.bind (Move.readOf? i)).toList.flatMap ReadEvent.bytes = m.elim [] (Move.bytesOf i) := by
  cases m with
  | none => rfl
  | some m =>
    rw [Option.bind_some, Option.elim_some, Move.bytesOf]
    cases m.readOf? i with
    | none => rfl
    | some event => simp

section Listening

variable {bound address : Text} (i : Nat)

/-- What a client has sent is what was read and what waits to be read. -/
theorem stream_of_run (hrun : (listening bound address).run? steps = some s) :
    (readsOf i ((listening bound address).moves steps)).flatMap ReadEvent.bytes ++ s.unreadOf i =
      sentBy i steps := by
  induction hrun using run_induction with
  | nil => rfl
  | concat steps step s t hrun hstep ih =>
    have hstream := streamStep hstep i
    rw [moves_concat hrun hstep, readsOf_append, readsOf_toList, List.flatMap_append,
      flatMap_bytes_toList, List.append_assoc, hstream.bytes, ← List.append_assoc, ih, sentBy, sentBy,
      List.flatMap_append, List.flatMap_singleton]

theorem closedOf_iff_of_run (hrun : (listening bound address).run? steps = some s) :
    s.closedOf i ↔ .close i ∈ steps := by
  induction hrun using run_induction with
  | nil => simp [listening, closedOf]
  | concat steps step s t hrun hstep ih =>
    rw [(streamStep hstep i).closed_iff, ih, List.mem_append, List.mem_singleton, eq_comm (a := step)]

/-- After the end of a stream nothing comes. -/
theorem ended_of_run (hrun : (listening bound address).run? steps = some s)
    (hclosed : .closed ∈ readsOf i ((listening bound address).moves steps)) :
    s.closedOf i ∧ s.unreadOf i = [] := by
  induction hrun using run_induction with
  | nil => cases hclosed
  | concat steps step s t hrun hstep ih =>
    have hstream := streamStep hstep i
    rw [moves_concat hrun hstep, readsOf_append, readsOf_toList, List.mem_append,
      Option.mem_toList] at hclosed
    have hs : s.closedOf i ∧ s.unreadOf i = [] := by
      rcases hclosed with hclosed | hclosed
      · exact ih hclosed
      · obtain ⟨m, hm, hread⟩ := Option.bind_eq_some_iff.mp hclosed
        apply hstream.ended
        rw [hm, Move.readOf?_eq_some_iff.mp hread]
    have hbytes := hstream.bytes
    rw [hs.2, hstream.bytesOf_eq_nil hs.1, List.append_nil, List.append_eq_nil_iff] at hbytes
    exact ⟨hstream.closed_iff.mpr (Or.inl hs.1), hbytes.2⟩

theorem map_arrival_of_run (hrun : (listening bound address).run? steps = some s) :
    s.visits.map Visit.arrival = arrivals steps := by
  induction hrun using run_induction with
  | nil => rfl
  | concat steps step s t hrun hstep ih =>
    rw [(streamStep hstep 0).arrivals, ih, arrivals, arrivals, List.filterMap_append]
    cases step <;> rfl

theorem stopping_iff_of_run (hrun : (listening bound address).run? steps = some s) :
    s.stopping ↔ HasStop steps := by
  induction hrun using run_induction with
  | nil => simp [listening, HasStop]
  | concat steps step s t hrun hstep ih =>
    rw [stopping_step hstep, Bool.or_eq_true, ih, HasStop, HasStop, List.any_append, Bool.or_eq_true,
      List.any_cons, List.any_nil, Bool.or_false]

end Listening

/-! ### One connection after the other -/

/-- The connections that the server is done with. -/
def served (s : Server) : Nat := s.serving?.elim s.accepted Prod.fst

section Tracked

variable {arrived : List Arrival} {input input' : Nat → List ReadEvent} {ms : List Move}

/-- All moves of a connection, given what was read from it. -/
def visitMoves (input : Nat → List ReadEvent) (i : Nat) : List Move :=
  .accepts i :: (input i).map (.reads i) ++ [.leaves i]

def exchangeOf? (arrived : List Arrival) (input : Nat → List ReadEvent) (i : Nat) : Option Exchange :=
  arrived[i]?.bind fun arrival => exchange? i arrival (Reader.run (input i))

/-- The exchanges with the first `n` connections. -/
def exchangesOf (arrived : List Arrival) (input : Nat → List ReadEvent) (n : Nat) : List Exchange :=
  (List.range n).filterMap (exchangeOf? arrived input)

/-- What the server has done follows from what was read from each connection. -/
structure Tracked (arrived : List Arrival) (input : Nat → List ReadEvent) (ms : List Move)
    (s : Server) : Prop where
  serving : ∀ i reader, s.serving? = some (i, reader) →
    s.accepted = i + 1 ∧ reader = Reader.run (input i)
  moves_eq : ms = (List.range s.served).flatMap (visitMoves input) ++
    s.serving?.elim [] fun current => .accepts current.1 :: (input current.1).map (.reads current.1)
  input_eq_nil : ∀ i, s.accepted ≤ i → input i = []
  heard : ∀ i, Reader.Heard (input i)
  not_reading : ∀ i < s.served, ∀ buffer wanted, Reader.run (input i) ≠ .reading buffer wanted
  responses_eq : s.responses = (exchangesOf arrived input s.served).map fun x => (x.visit, x.response)
  accessEvents_eq : s.accessEvents = (exchangesOf arrived input s.served).map Exchange.accessEvent
  accepted_le : s.accepted ≤ arrived.length

theorem exchangesOf_succ (arrived : List Arrival) (input : Nat → List ReadEvent) (n : Nat) :
    exchangesOf arrived input (n + 1) =
      exchangesOf arrived input n ++ (exchangeOf? arrived input n).toList := by
  rw [exchangesOf, exchangesOf, List.range_succ, List.filterMap_append]
  cases h : exchangeOf? arrived input n <;> simp [h]

theorem exchangesOf_congr {arrived' : List Arrival} {n : Nat}
    (harrived : ∀ i < n, arrived'[i]? = arrived[i]?) (hinput : ∀ i < n, input' i = input i) :
    exchangesOf arrived' input' n = exchangesOf arrived input n := by
  apply List.filterMap_congr
  intro i hi
  rw [List.mem_range] at hi
  rw [exchangeOf?, exchangeOf?, harrived i hi, hinput i hi]

theorem flatMap_visitMoves_congr {n : Nat} (hinput : ∀ i < n, input' i = input i) :
    (List.range n).flatMap (visitMoves input') = (List.range n).flatMap (visitMoves input) := by
  apply List.flatMap_congr
  intro i hi
  rw [visitMoves, visitMoves, hinput i (List.mem_range.mp hi)]

namespace Tracked

theorem served_le (h : Tracked arrived input ms s) : s.served ≤ s.accepted := by
  unfold served
  cases hserving : s.serving? with
  | none => exact Nat.le_refl _
  | some current =>
    have haccepted := (h.serving current.1 current.2 hserving).1
    rw [Option.elim_some]
    omega

theorem append_arrivals (h : Tracked arrived input ms s) (more : List Arrival) :
    Tracked (arrived ++ more) input ms s := by
  have hexchanges : exchangesOf (arrived ++ more) input s.served =
      exchangesOf arrived input s.served := by
    refine exchangesOf_congr (fun i hi => ?_) fun _ _ => rfl
    apply List.getElem?_append_left
    have := h.served_le
    have := h.accepted_le
    omega
  refine ⟨h.serving, h.moves_eq, h.input_eq_nil, h.heard, h.not_reading, ?_, ?_, ?_⟩
  · rw [hexchanges]
    exact h.responses_eq
  · rw [hexchanges]
    exact h.accessEvents_eq
  · rw [List.length_append]
    exact Nat.le_add_right_of_le h.accepted_le

theorem of_none (h : Tracked arrived input ms s) (hstep : MoveStep s t none) :
    Tracked arrived input ms t := by
  obtain ⟨hserving, haccepted, hcompletes⟩ := hstep
  have hserved : t.served = s.served := by rw [served, served, hserving, haccepted]
  obtain ⟨hresponses, haccess⟩ := hcompletes.eq_of_none
  refine ⟨?_, ?_, ?_, h.heard, ?_, ?_, ?_, ?_⟩
  · rw [hserving, haccepted]
    exact h.serving
  · rw [hserved, hserving]
    exact h.moves_eq
  · rw [haccepted]
    exact h.input_eq_nil
  · rw [hserved]
    exact h.not_reading
  · rw [hserved, hresponses]
    exact h.responses_eq
  · rw [hserved, haccess]
    exact h.accessEvents_eq
  · rw [haccepted]
    exact h.accepted_le

theorem accepts (h : Tracked arrived input ms s) (hstep : MoveStep s t (some (.accepts i)))
    (harrived : arrived.length = s.visits.length) :
    Tracked arrived input (ms ++ [.accepts i]) t := by
  obtain ⟨hidle, rfl, hlt, hserving, haccepted, hcompletes⟩ := hstep
  have hnil := h.input_eq_nil s.accepted (Nat.le_refl _)
  have hserved : t.served = s.served := by rw [served, served, hserving, hidle]; rfl
  obtain ⟨hresponses, haccess⟩ := hcompletes.eq_of_none
  refine ⟨?_, ?_, ?_, h.heard, ?_, ?_, ?_, ?_⟩
  · intro i reader hi
    rw [hserving] at hi
    obtain ⟨rfl, rfl⟩ := Prod.mk.inj (Option.some.inj hi)
    rw [hnil]
    exact ⟨haccepted, rfl⟩
  · rw [hserved, hserving, Option.elim_some, hnil]
    conv => lhs; rw [h.moves_eq, hidle]
    simp
  · intro i hi
    exact h.input_eq_nil i (by omega)
  · rw [hserved]
    exact h.not_reading
  · rw [hserved, hresponses]
    exact h.responses_eq
  · rw [hserved, haccess]
    exact h.accessEvents_eq
  · omega

theorem reads (h : Tracked arrived input ms s) {event : ReadEvent}
    (hstep : MoveStep s t (some (.reads i event))) (hself : input' i = input i ++ [event])
    (hother : ∀ j, j ≠ i → input' j = input j) :
    Tracked arrived input' (ms ++ [.reads i event]) t := by
  obtain ⟨buffer, wanted, hserving, hevent, hnext, haccepted, hcompletes⟩ := hstep
  obtain ⟨hcount, hreader⟩ := h.serving i _ hserving
  have hs : s.served = i := by rw [served, hserving]; rfl
  have ht : t.served = i := by rw [served, hnext]; rfl
  -- all that is read comes from the last connection, so nothing changes for the ones before it
  have hbefore : ∀ j < i, input' j = input j := fun j hj => hother j (Nat.ne_of_lt hj)
  have hexchanges : exchangesOf arrived input' i = exchangesOf arrived input i :=
    exchangesOf_congr (fun _ _ => rfl) hbefore
  obtain ⟨hresponses, haccess⟩ := hcompletes.eq_of_none
  have hmoves := h.moves_eq
  have hdone := h.not_reading
  have hresponsesBefore := h.responses_eq
  have haccessBefore := h.accessEvents_eq
  rw [hs] at hmoves hdone hresponsesBefore haccessBefore
  refine ⟨?_, ?_, ?_, ?_, ?_, ?_, ?_, ?_⟩
  · intro j reader hj
    rw [hnext] at hj
    obtain ⟨rfl, rfl⟩ := Prod.mk.inj (Option.some.inj hj)
    rw [hself, Reader.run_concat, ← hreader]
    exact ⟨haccepted.trans hcount, rfl⟩
  · rw [ht, hnext, Option.elim_some, hself, flatMap_visitMoves_congr hbefore, hmoves, hserving]
    simp
  · intro j hj
    rw [hother j (by omega)]
    exact h.input_eq_nil j (by omega)
  · intro j
    by_cases hj : j = i
    · rw [hj, hself]
      exact (h.heard i).concat hreader.symm hevent
    · rw [hother j hj]
      exact h.heard j
  · intro j hj
    rw [ht] at hj
    rw [hbefore j hj]
    exact hdone j hj
  · rw [ht, hexchanges, hresponses]
    exact hresponsesBefore
  · rw [ht, hexchanges, haccess]
    exact haccessBefore
  · rw [haccepted]
    exact h.accepted_le

theorem leaves (h : Tracked arrived input ms s) (hstep : MoveStep s t (some (.leaves i)))
    (harrived : arrived = s.visits.map Visit.arrival) :
    Tracked arrived input (ms ++ [.leaves i]) t := by
  obtain ⟨reader, v, hserving, hvisit, hnot, hnext, haccepted, hcompletes⟩ := hstep
  obtain ⟨hcount, rfl⟩ := h.serving i _ hserving
  have hs : s.served = i := by rw [served, hserving]; rfl
  have ht : t.served = i + 1 := by rw [served, hnext, haccepted, hcount]; rfl
  have hexchange : exchangeOf? arrived input i = exchange? i v.arrival (Reader.run (input i)) := by
    rw [exchangeOf?, harrived, List.getElem?_map, hvisit]
    rfl
  have hmoves := h.moves_eq
  have hdone := h.not_reading
  have hresponses := hcompletes.responses_eq
  have haccess := hcompletes.accessEvents_eq
  rw [h.responses_eq, hs, ← hexchange, ← List.map_append, ← exchangesOf_succ] at hresponses
  rw [h.accessEvents_eq, hs, ← hexchange, ← List.map_append, ← exchangesOf_succ] at haccess
  rw [hs] at hmoves hdone
  refine ⟨?_, ?_, ?_, h.heard, ?_, ?_, ?_, ?_⟩
  · intro j reader hj
    rw [hnext] at hj
    cases hj
  · rw [ht, hnext, List.range_succ, List.flatMap_append, List.flatMap_singleton, hmoves, hserving]
    simp [visitMoves]
  · rw [haccepted]
    exact h.input_eq_nil
  · intro j hj
    rw [ht] at hj
    by_cases hlt : j < i
    · exact hdone j hlt
    · obtain rfl : j = i := by omega
      exact hnot
  · rw [ht]
    exact hresponses
  · rw [ht]
    exact haccess
  · rw [haccepted]
    exact h.accepted_le

end Tracked

end Tracked

section Run

variable {bound address : Text}

theorem tracked_listening (bound address : Text) :
    Tracked [] (fun _ => []) [] (listening bound address) where
  serving := fun _ _ h => by cases h
  moves_eq := rfl
  input_eq_nil := fun _ _ => rfl
  heard := fun _ => Reader.heard_nil
  not_reading := fun i hi => absurd hi (Nat.not_lt_zero i)
  responses_eq := rfl
  accessEvents_eq := rfl
  accepted_le := Nat.le_refl _

theorem tracked_of_run (hrun : (listening bound address).run? steps = some s) :
    Tracked (arrivals steps) (fun i => readsOf i ((listening bound address).moves steps))
      ((listening bound address).moves steps) s := by
  induction hrun using run_induction with
  | nil => exact tracked_listening bound address
  | concat steps step s t hrun hstep ih =>
    have hmove := moveStep hstep
    have harrived := map_arrival_of_run hrun
    rw [moves_concat hrun hstep, arrivals, List.filterMap_append]
    apply Tracked.append_arrivals
    -- from here on only the move counts, whatever step it comes from
    cases hm : s.move? step with
    | none =>
      rw [hm] at hmove
      simp only [Option.toList_none, List.append_nil]
      exact ih.of_none hmove
    | some m =>
      rw [hm] at hmove
      simp only [Option.toList_some, readsOf_append]
      cases m with
      | accepts i =>
        simp only [readsOf, List.filterMap_cons, Move.readOf?, List.filterMap_nil, List.append_nil]
        apply ih.accepts hmove
        rw [← harrived, List.length_map]
      | reads i event =>
        apply ih.reads hmove
        · simp [readsOf, Move.readOf?]
        · intro j hj
          simp [readsOf, Move.readOf?, Ne.symm hj]
      | leaves i =>
        simp only [readsOf, List.filterMap_cons, Move.readOf?, List.filterMap_nil, List.append_nil]
        exact ih.leaves hmove harrived.symm

/-! ### Stopping -/

/-- The connections that are accepted whatever happens once the server is to stop. -/
def committed (s : Server) : Nat := s.accepted + if s.phase = .accepting then 1 else 0

theorem committed_le (haccepted : t.accepted = s.accepted)
    (hphase : t.phase = .accepting → s.phase = .accepting) : t.committed ≤ s.committed := by
  have hmore : (if t.phase = .accepting then 1 else 0) ≤ if s.phase = .accepting then 1 else 0 := by
    by_cases ht : t.phase = .accepting
    · simp [ht, hphase ht]
    · simp [ht]
  rw [committed, committed, haccepted]
  exact Nat.add_le_add_left hmore _

theorem committed_step (hstop : s.stopping) (h : s.step? step = some t) :
    t.committed ≤ s.committed := by
  cases step with
  | connect arrival =>
    obtain rfl := Option.some.inj h
    exact committed_le rfl id
  | send j bytes =>
    obtain ⟨v, -, -, rfl⟩ := send_eq_some h
    exact committed_le rfl id
  | close j =>
    obtain ⟨v, -, rfl⟩ := close_eq_some h
    exact committed_le rfl id
  | trigger =>
    obtain rfl := Option.some.inj h
    exact committed_le rfl id
  | interrupt =>
    obtain rfl := Option.some.inj h
    exact committed_le rfl id
  | check =>
    obtain ⟨-, ⟨-, rfl⟩ | ⟨hgo, -⟩⟩ := check?_eq_some h
    · exact committed_le rfl fun hphase => by cases hphase
    · exact absurd hstop hgo
  | accept =>
    obtain ⟨hphase, ⟨-, rfl⟩ | ⟨v, -, rfl⟩⟩ := accept?_eq_some h
    · exact committed_le rfl fun hphase => by cases hphase
    · rw [committed, committed, if_pos hphase]
      exact Nat.le_refl _
  | read count =>
    obtain ⟨j, buffer, wanted, v, -, -, ⟨-, -, rfl⟩ | ⟨-, -, rfl⟩⟩ := read?_eq_some h
    · exact committed_le rfl fun hphase => by cases hphase
    · exact committed_le rfl fun hphase => by cases hphase
  | timeOut =>
    obtain ⟨j, buffer, wanted, v, -, -, rfl⟩ := timeOut?_eq_some h
    exact committed_le rfl fun hphase => by cases hphase
  | answer =>
    obtain ⟨j, reader, v, -, -, ⟨-, rfl⟩ | ⟨-, rfl⟩ | ⟨raw, -, -, rfl⟩⟩ := answer?_eq_some h
    · exact committed_le rfl fun hphase => by cases hphase
    · exact committed_le rfl fun hphase => by cases hphase
    · exact committed_le rfl fun hphase => by cases hphase

theorem committed_run (hstop : s.stopping) (hrun : s.run? steps = some t) :
    t.committed ≤ s.committed := by
  induction steps generalizing s with
  | nil =>
    obtain rfl := Option.some.inj hrun
    exact Nat.le_refl _
  | cons step steps ih =>
    obtain ⟨r, hstep, hrest⟩ := Option.bind_eq_some_iff.mp hrun
    have hr : r.stopping := by rw [stopping_step hstep, hstop, Bool.true_or]
    exact Nat.le_trans (ih hr hrest) (committed_step hstop hstep)

theorem accepted_le_of_hasStop {before after : List Step}
    (hrun : (listening bound address).run? (before ++ after) = some s) (hstop : HasStop before)
    (hbefore : (listening bound address).run? before = some t) : s.accepted ≤ t.accepted + 1 := by
  rw [run?, List.foldlM_append] at hrun
  obtain ⟨r, hr, hafter⟩ := Option.bind_eq_some_iff.mp hrun
  obtain rfl : r = t := Option.some.inj (hr.symm.trans hbefore)
  have hstopping := (stopping_iff_of_run hbefore).mpr hstop
  calc s.accepted ≤ s.committed := Nat.le_add_right _ _
    _ ≤ r.committed := committed_run hstopping hafter
    _ ≤ r.accepted + 1 := by
      unfold committed
      split <;> omega

/-- A read from a connection timed out when the server was to stop. -/
def TimedOutAfterStop (start : Server) (steps : List Step) (i : Nat) : Prop :=
  ∃ before after s reader, steps = before ++ .timeOut :: after ∧ start.run? before = some s ∧
    s.phase = .serving i reader ∧ HasStop before

theorem move?_eq_timedOut {stopping : Bool} (h : s.move? step = some (.reads i (.timedOut stopping))) :
    step = .timeOut ∧ s.stopping = stopping ∧ ∃ reader, s.phase = .serving i reader := by
  cases step with
  | timeOut =>
    obtain ⟨⟨j, reader⟩, hserving, hmove⟩ := Option.map_eq_some_iff.mp h
    cases hmove
    exact ⟨rfl, rfl, reader, serving?_eq_some_iff.mp hserving⟩
  | read count =>
    obtain ⟨current, -, hmove⟩ := Option.map_eq_some_iff.mp h
    unfold readEvent at hmove
    split at hmove <;> cases hmove
  | accept => rcases move?_accept_cases s with hmove | hmove <;> rw [hmove] at h <;> cases h
  | answer =>
    obtain ⟨current, -, hmove⟩ := Option.map_eq_some_iff.mp h
    cases hmove
  | connect | send | close | trigger | interrupt | check => cases h

theorem timedOutAfterStop_of_run (hrun : (listening bound address).run? steps = some s)
    (h : .timedOut true ∈ readsOf i ((listening bound address).moves steps)) :
    TimedOutAfterStop (listening bound address) steps i := by
  induction hrun using run_induction with
  | nil => cases h
  | concat steps step s t hrun hstep ih =>
    rw [moves_concat hrun hstep, readsOf_append, readsOf_toList, List.mem_append,
      Option.mem_toList] at h
    rcases h with h | h
    · obtain ⟨before, after, r, reader, rfl, hr, hphase, hstop⟩ := ih h
      exact ⟨before, after ++ [step], r, reader, by simp, hr, hphase, hstop⟩
    · obtain ⟨m, hm, hread⟩ := Option.bind_eq_some_iff.mp h
      rw [Move.readOf?_eq_some_iff.mp hread] at hm
      obtain ⟨rfl, hstop, reader, hphase⟩ := move?_eq_timedOut hm
      exact ⟨steps, [], s, reader, rfl, hrun, hphase, (stopping_iff_of_run hrun).mp hstop⟩

/-! ### Back at the head of the accept loop -/

/-- A request is what was read from its own connection, and the arrival is that of its connection. -/
structure IsOwn (start : Server) (steps : List Step) (x : Exchange) : Prop where
  arrival : (arrivals steps)[x.visit]? = some x.arrival
  reader : Reader.run (readsOf x.visit (start.moves steps)) = .finished x.raw
  ne_nil : x.raw ≠ []
  sent : x.raw <+: sentBy x.visit steps

/-- What holds of a run that has led to the head of the accept loop. -/
structure Orderly (start : Server) (steps : List Step) (s : Server) : Prop where
  one_at_a_time : start.moves steps =
    (List.range s.accepted).flatMap (visitMoves fun i => readsOf i (start.moves steps))
  answers : ∃ xs : List Exchange,
    (xs.map Exchange.visit).Pairwise (· < ·) ∧ (∀ x ∈ xs, IsOwn start steps x) ∧
      s.responses = xs.map (fun x => (x.visit, x.response)) ∧
        s.accessEvents = xs.map Exchange.accessEvent
  unanswered : ∀ i < s.accepted, i ∉ s.responses.map Prod.fst →
    (sentBy i steps = [] ∧ .close i ∈ steps) ∨ TimedOutAfterStop start steps i
  after_stop : ∀ before after t, steps = before ++ after → HasStop before →
    start.run? before = some t → s.accepted ≤ t.accepted + 1

theorem exchange?_eq_some {arrival : Arrival} {reader : Reader} {x : Exchange}
    (h : exchange? i arrival reader = some x) :
    x.visit = i ∧ x.arrival = arrival ∧ reader = .finished x.raw ∧ x.raw ≠ [] := by
  unfold exchange? at h
  split at h
  · obtain rfl := Option.some.inj h
    exact ⟨rfl, rfl, rfl, List.cons_ne_nil _ _⟩
  · cases h

theorem isOwn_of_run (hrun : (listening bound address).run? steps = some s) {n : Nat} {x : Exchange}
    (hx : x ∈ exchangesOf (arrivals steps)
      (fun i => readsOf i ((listening bound address).moves steps)) n) :
    IsOwn (listening bound address) steps x := by
  obtain ⟨i, -, hx⟩ := List.mem_filterMap.mp hx
  obtain ⟨arrival, harrival, hx⟩ := Option.bind_eq_some_iff.mp hx
  obtain ⟨rfl, rfl, hreader, hne⟩ := exchange?_eq_some hx
  refine ⟨harrival, hreader, hne, ?_⟩
  have hheard := (tracked_of_run hrun).heard x.visit
  rw [Reader.Heard, hreader] at hheard
  rw [hheard.1, ← stream_of_run x.visit hrun]
  exact List.prefix_append _ _

theorem pairwise_visit_exchangesOf (arrived : List Arrival) (input : Nat → List ReadEvent) (n : Nat) :
    ((exchangesOf arrived input n).map Exchange.visit).Pairwise (· < ·) := by
  have hvisit : ∀ i x, exchangeOf? arrived input i = some x → x.visit = i := by
    intro i x hx
    obtain ⟨arrival, -, hx⟩ := Option.bind_eq_some_iff.mp hx
    exact (exchange?_eq_some hx).1
  rw [List.pairwise_map, exchangesOf, List.pairwise_filterMap]
  apply List.pairwise_lt_range.imp
  intro i j hlt x hx y hy
  rwa [hvisit i x hx, hvisit j y hy]

theorem unanswered_of_run (hrun : (listening bound address).run? steps = some s)
    (hidle : s.phase = .idle) (hi : i < s.accepted) (hnot : i ∉ s.responses.map Prod.fst) :
    (sentBy i steps = [] ∧ .close i ∈ steps) ∨
      TimedOutAfterStop (listening bound address) steps i := by
  have htracked := tracked_of_run hrun
  have hserved : s.served = s.accepted := by rw [served, serving?, hidle]; rfl
  have hheard := htracked.heard i
  rw [Reader.Heard] at hheard
  cases hreader : Reader.run (readsOf i ((listening bound address).moves steps)) with
  | reading buffer wanted =>
    exact absurd hreader (htracked.not_reading i (hserved ▸ hi) buffer wanted)
  | abandoned =>
    rw [hreader] at hheard
    exact Or.inr (timedOutAfterStop_of_run hrun hheard)
  | finished raw =>
    rw [hreader] at hheard
    obtain ⟨hraw, hclosed⟩ := hheard
    have hnil : raw = [] := by
      by_contra hne
      obtain ⟨b, rest, rfl⟩ := List.exists_cons_of_ne_nil hne
      have hlt : i < (arrivals steps).length := Nat.lt_of_lt_of_le hi htracked.accepted_le
      apply hnot
      rw [htracked.responses_eq, hserved, List.map_map]
      refine List.mem_map.mpr ⟨⟨i, (arrivals steps)[i], b :: rest⟩, ?_, rfl⟩
      refine List.mem_filterMap.mpr ⟨i, List.mem_range.mpr hi, ?_⟩
      rw [exchangeOf?, List.getElem?_eq_getElem hlt, Option.bind_some, hreader, exchange?]
    obtain ⟨hclosedOf, hunread⟩ := ended_of_run i hrun (hclosed hnil)
    refine Or.inl ⟨?_, (closedOf_iff_of_run i hrun).mp hclosedOf⟩
    rw [← stream_of_run i hrun, ← hraw, hnil, hunread, List.append_nil]

/-- Whatever steps a run mixes: the accepted connections are served one after the other, each answer
comes from the bytes of its own connection and is logged once, a connection without an answer was silent
or timed out when the server was to stop, and at most one is accepted after that. -/
theorem orderly_of_run (hrun : (listening bound address).run? steps = some s)
    (hidle : s.phase = .idle) : Orderly (listening bound address) steps s where
  one_at_a_time := by
    have htracked := tracked_of_run hrun
    have hserving : s.serving? = none := by rw [serving?, hidle]
    have hmoves := htracked.moves_eq
    rw [served, hserving, Option.elim_none, Option.elim_none, List.append_nil] at hmoves
    exact hmoves
  answers := by
    have htracked := tracked_of_run hrun
    exact ⟨_, pairwise_visit_exchangesOf _ _ _, fun x hx => isOwn_of_run hrun hx,
      htracked.responses_eq, htracked.accessEvents_eq⟩
  unanswered := fun i hi hnot => unanswered_of_run hrun hidle hi hnot
  after_stop := by
    rintro before after t rfl hstop hbefore
    exact accepted_le_of_hasStop hrun hstop hbefore

end Run

/-- The second client connects while the first sends, and is waited for until the server is to stop. The
third one is not accepted. -/
def interleavedSteps : List Step :=
  let arrival : Arrival := ⟨[], [], [], []⟩
  let request := "GET / HTTP/1.1\n\n".toList.map Char.toUInt8
  [.connect arrival, .check, .accept, .send 0 (request.take 5), .connect arrival, .send 1 [0x47],
    .read 3, .send 0 (request.drop 5), .read 8192, .answer, .check, .accept, .read 1, .trigger,
    .connect arrival, .timeOut, .answer]

theorem orderly_of_run_interleavedSteps :
    ∃ s, (listening [] []).run? interleavedSteps = some s ∧ s.phase = .idle ∧ s.accepted = 2 ∧
      Orderly (listening [] []) interleavedSteps s :=
  ⟨_, rfl, rfl, rfl, orderly_of_run rfl rfl⟩

end HttpEcho.Server
