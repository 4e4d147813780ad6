import HttpEcho.Json.Reader
import HttpEcho.Proofs.Entries
import HttpEcho.Proofs.JsonNumber
import HttpEcho.Proofs.JsonShape

/-!
# What the reader gives

Every value that is complete or open at some point of reading is well-formed: a step only adds a scalar
of the document or closes a container over values that were there before.
-/

namespace HttpEcho.Json

/-! ### Scalars -/

theorem wellFormed_of_value? {numeral : Numeral} {v : Json} (h : numeral.value? = some v) :
    v.WellFormed := by
  unfold Numeral.value? at h
  split at h
  · next n hint =>
    obtain rfl := Option.some.inj h
    exact .int (intInRange_of_int? hint)
  · obtain ⟨x, -, rfl⟩ := Option.map_eq_some_iff.mp h
    exact .float _

theorem wellFormed_of_ofWord? {t : Text} {v : Json} (h : ofWord? t = some v) : v.WellFormed := by
  unfold ofWord? at h
  split at h
  · obtain rfl := Option.some.inj h
    exact .null
  split at h
  · obtain rfl := Option.some.inj h
    exact .bool true
  split at h
  · obtain rfl := Option.some.inj h
    exact .bool false
  · obtain ⟨numeral, -, hvalue⟩ := Option.bind_eq_some_iff.mp h
    exact wellFormed_of_value? hvalue

/-! ### The states of the machine -/

def Frame.WellFormed : Frame → Prop
  | .items done => ∀ v ∈ done, v.WellFormed
  | .members done _ => ∀ m ∈ done, m.2.WellFormed

namespace State

def WellFormed : State → Prop
  | value outer => ∀ f ∈ outer, f.WellFormed
  | firstItem outer => ∀ f ∈ outer, f.WellFormed
  | key done outer => (∀ m ∈ done, m.2.WellFormed) ∧ ∀ f ∈ outer, f.WellFormed
  | colon done _ outer => (∀ m ∈ done, m.2.WellFormed) ∧ ∀ f ∈ outer, f.WellFormed
  | after v outer => v.WellFormed ∧ ∀ f ∈ outer, f.WellFormed

theorem wellFormed_closeObject {done : List (Text × Json)} (h : ∀ m ∈ done, m.2.WellFormed) :
    (closeObject done).WellFormed := by
  refine .obj (Entries.nodup_keys_ofList done.reverse) ?_
  intro m hm
  exact h m (List.mem_reverse.mp (Entries.mem_of_mem_ofList hm))

theorem wellFormed_of_enter? {outer : List Frame} {state s : State} (hstate : state.WellFormed)
    (h : enter? outer state = some s) : s.WellFormed := by
  unfold enter? at h
  split at h
  · obtain rfl := Option.some.inj h
    exact hstate
  · cases h

theorem wellFormed_of_readValue? {outer : List Frame} {l : Lexeme} {s : State}
    (houter : ∀ f ∈ outer, f.WellFormed) (h : readValue? outer l = some s) : s.WellFormed := by
  unfold readValue? at h
  split at h
  · obtain ⟨v, hv, rfl⟩ := Option.map_eq_some_iff.mp h
    exact ⟨wellFormed_of_ofWord? hv, houter⟩
  · obtain ⟨t, -, rfl⟩ := Option.map_eq_some_iff.mp h
    exact ⟨.str t, houter⟩
  · have hfirst : (firstItem outer).WellFormed := houter
    exact wellFormed_of_enter? hfirst h
  · have hkey : (key [] outer).WellFormed := ⟨by simp, houter⟩
    exact wellFormed_of_enter? hkey h
  · cases h

theorem wellFormed_of_readKey? {done : List (Text × Json)} {outer : List Frame} {l : Lexeme}
    {s : State} (hdone : ∀ m ∈ done, m.2.WellFormed) (houter : ∀ f ∈ outer, f.WellFormed)
    (h : readKey? done outer l = some s) : s.WellFormed := by
  unfold readKey? at h
  split at h
  · obtain ⟨k, -, rfl⟩ := Option.map_eq_some_iff.mp h
    exact ⟨hdone, houter⟩
  · cases h

theorem WellFormed.step {s s' : State} {l : Lexeme} (hs : s.WellFormed) (h : step? s l = some s') :
    s'.WellFormed := by
  cases s with
  | value outer => exact wellFormed_of_readValue? hs h
  | firstItem outer =>
    rw [step?] at h
    split at h
    · obtain rfl := Option.some.inj h
      exact ⟨.arr (by simp), hs⟩
    · have houter : ∀ f ∈ Frame.items [] :: outer, f.WellFormed :=
        List.forall_mem_cons.mpr ⟨by simp [Frame.WellFormed], hs⟩
      exact wellFormed_of_readValue? houter h
  | key done outer =>
    rw [step?] at h
    split at h
    · obtain rfl := Option.some.inj h
      exact ⟨wellFormed_closeObject (by simp), hs.2⟩
    · exact wellFormed_of_readKey? hs.1 hs.2 h
  | colon done k outer =>
    rw [step?] at h
    split at h
    · obtain rfl := Option.some.inj h
      exact List.forall_mem_cons.mpr ⟨hs.1, hs.2⟩
    · cases h
  | after v outer =>
    obtain ⟨hv, houter⟩ := hs
    cases outer with
    | nil => cases h
    | cons frame outer =>
      obtain ⟨hframe, hrest⟩ := List.forall_mem_cons.mp houter
      cases frame with
      | items done =>
        have hdone : ∀ x ∈ v :: done, x.WellFormed := List.forall_mem_cons.mpr ⟨hv, hframe⟩
        rw [step?] at h
        split at h
        · obtain rfl := Option.some.inj h
          exact List.forall_mem_cons.mpr ⟨hdone, hrest⟩
        split at h
        · obtain rfl := Option.some.inj h
          exact ⟨.arr fun x hx => hdone x (List.mem_reverse.mp hx), hrest⟩
        · cases h
      | members done k =>
        have hdone : ∀ m ∈ (k, v) :: done, m.2.WellFormed := List.forall_mem_cons.mpr ⟨hv, hframe⟩
        rw [step?] at h
        split at h
        · obtain rfl := Option.some.inj h
          exact ⟨hdone, hrest⟩
        split at h
        · obtain rfl := Option.some.inj h
          exact ⟨wellFormed_closeObject hdone, hrest⟩
        · cases h

theorem WellFormed.run {s s' : State} {input : List Lexeme} (hs : s.WellFormed)
    (h : run? s input = some s') : s'.WellFormed := by
  induction input generalizing s with
  | nil =>
    obtain rfl := Option.some.inj h
    exact hs
  | cons l input ih =>
    rw [run?, List.foldlM_cons] at h
    obtain ⟨next, hstep, hrest⟩ := Option.bind_eq_some_iff.mp h
    exact ih (hs.step hstep) hrest

end State

theorem wellFormed_of_ofText? {t : Text} {v : Json} (h : ofText? t = some v) : v.WellFormed := by
  obtain ⟨input, -, h⟩ := Option.bind_eq_some_iff.mp h
  obtain ⟨state, hrun, hresult⟩ := Option.bind_eq_some_iff.mp h
  have hstart : (State.value []).WellFormed := by
    intro f hf
    cases hf
  have hstate := State.WellFormed.run hstart hrun
  unfold State.result? at hresult
  split at hresult
  · obtain rfl := Option.some.inj hresult
    exact hstate.1
  · cases hresult

end HttpEcho.Json
