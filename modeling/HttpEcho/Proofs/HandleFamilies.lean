import HttpEcho.Shutdown
import Mathlib.Data.List.Basic
import Mathlib.Data.List.Induction

/-!
# Families of handles

A handle that is made afresh starts a family, and a clone belongs to the family of the handle it was made
from. A handle asks to stop exactly when one of its family was triggered, be it before or after it was
made itself.
-/

namespace HttpEcho.Handles

variable {steps : List Step} {step : Step} {h : Handles} {handle other origin flag : Nat}

/-! ### Families -/

def empty : Handles := ⟨[], []⟩

def count (h : Handles) : Nat := h.flagOf.length

/-- After `steps`, `handle` is `origin`, which was made afresh, or a clone of a handle that goes back to
it. Handles are numbered in the order in which they are made. -/
inductive GoesBackTo : List Step → Nat → Nat → Prop
  | new (steps : List Step) :
    GoesBackTo (steps ++ [.new]) (empty.run steps).count (empty.run steps).count
  | clone {steps : List Step} {handle origin : Nat} (hback : GoesBackTo steps handle origin) :
    GoesBackTo (steps ++ [.clone handle]) (empty.run steps).count origin
  | later {steps : List Step} {handle origin : Nat} (step : Step)
    (hback : GoesBackTo steps handle origin) : GoesBackTo (steps ++ [step]) handle origin

def SameFamily (steps : List Step) (handle other : Nat) : Prop :=
  ∃ origin, GoesBackTo steps handle origin ∧ GoesBackTo steps other origin

/-- One of the steps triggered `handle`, which had been made by then. -/
def WasTriggered (steps : List Step) (handle : Nat) : Prop :=
  ∃ before after, steps = before ++ .trigger handle :: after ∧ handle < (empty.run before).count

theorem GoesBackTo.append (hback : GoesBackTo steps handle origin) (more : List Step) :
    GoesBackTo (steps ++ more) handle origin := by
  induction more using List.reverseRecOn with
  | nil => rwa [List.append_nil]
  | append_singleton more step ih =>
    rw [← List.append_assoc]
    exact ih.later step

theorem WasTriggered.append (htrigger : WasTriggered steps handle) (more : List Step) :
    WasTriggered (steps ++ more) handle := by
  obtain ⟨before, after, rfl, hlt⟩ := htrigger
  exact ⟨before, after ++ more, by rw [List.append_assoc, List.cons_append], hlt⟩

/-- What a step adds to the families. -/
theorem goesBackTo_concat_iff :
    GoesBackTo (steps ++ [step]) handle origin ↔ GoesBackTo steps handle origin ∨
      (step = .new ∧ handle = (empty.run steps).count ∧ origin = (empty.run steps).count) ∨
      ∃ source, step = .clone source ∧ handle = (empty.run steps).count ∧
        GoesBackTo steps source origin := by
  constructor
  · generalize hall : steps ++ [step] = all
    intro hback
    cases hback with
    | new before =>
      obtain ⟨rfl, rfl⟩ := List.append_singleton_inj.mp hall
      exact Or.inr (Or.inl ⟨rfl, rfl, rfl⟩)
    | clone hback =>
      obtain ⟨rfl, rfl⟩ := List.append_singleton_inj.mp hall
      exact Or.inr (Or.inr ⟨_, rfl, rfl, hback⟩)
    | later last hback =>
      obtain ⟨rfl, rfl⟩ := List.append_singleton_inj.mp hall
      exact Or.inl hback
  · rintro (hback | ⟨rfl, rfl, rfl⟩ | ⟨source, rfl, rfl, hback⟩)
    · exact hback.later step
    · exact .new steps
    · exact .clone hback

theorem wasTriggered_concat_iff :
    WasTriggered (steps ++ [step]) handle ↔
      WasTriggered steps handle ∨ step = .trigger handle ∧ handle < (empty.run steps).count := by
  constructor
  · rintro ⟨before, after, hsteps, hlt⟩
    cases after using List.reverseRecOn with
    | nil =>
      obtain ⟨rfl, rfl⟩ := List.append_singleton_inj.mp hsteps
      exact Or.inr ⟨rfl, hlt⟩
    | append_singleton after last _ =>
      rw [← List.cons_append, ← List.append_assoc] at hsteps
      obtain ⟨rfl, rfl⟩ := List.append_singleton_inj.mp hsteps
      exact Or.inl ⟨before, after, rfl, hlt⟩
  · rintro (htrigger | ⟨rfl, hlt⟩)
    · exact htrigger.append [step]
    · exact ⟨steps, [], rfl, hlt⟩

/-! ### The flags -/

theorem run_concat (h : Handles) (steps : List Step) (step : Step) :
    h.run (steps ++ [step]) = (h.run steps).step step := by
  rw [run, List.foldl_append]
  rfl

theorem isTriggered_iff :
    h.isTriggered handle ↔ ∃ flag, h.flagOf[handle]? = some flag ∧ h.flags[flag]? = some true := by
  unfold isTriggered
  cases hflag : h.flagOf[handle]? with
  | none => simp
  | some flag =>
    cases hvalue : h.flags[flag]? with
    | none => simp [hvalue]
    | some value => simp [hvalue]

theorem getElem?_concat_eq_some_iff {α : Type} {xs : List α} {x y : α} {i : Nat} :
    (xs ++ [x])[i]? = some y ↔ xs[i]? = some y ∨ i = xs.length ∧ x = y := by
  rcases Nat.lt_trichotomy i xs.length with hlt | rfl | hlt
  · rw [List.getElem?_append_left hlt]
    exact ⟨Or.inl, fun h => h.resolve_right fun hi => absurd hi.1 (Nat.ne_of_lt hlt)⟩
  · simp
  · have hnone : xs[i]? = none := List.getElem?_eq_none (Nat.le_of_lt hlt)
    have hnone' : (xs ++ [x])[i]? = none :=
      List.getElem?_eq_none (by rw [List.length_append, List.length_singleton]; exact hlt)
    simp [hnone, hnone', Nat.ne_of_gt hlt]

/-- The first place of an entry, before and after one more is added. -/
theorem exists_idxOf_concat_iff {xs : List Nat} {x i first : Nat} :
    (∃ y, (xs ++ [x])[i]? = some y ∧ (xs ++ [x]).idxOf y = first) ↔
      (∃ y, xs[i]? = some y ∧ xs.idxOf y = first) ∨ i = xs.length ∧ xs.idxOf x = first := by
  have hnew : (xs ++ [x]).idxOf x = xs.idxOf x := by
    by_cases hmem : x ∈ xs
    · exact List.idxOf_append_of_mem hmem
    · rw [List.idxOf_append_of_notMem hmem, List.idxOf_cons_self, List.idxOf_of_notMem hmem, Nat.add_zero]
  simp only [getElem?_concat_eq_some_iff]
  constructor
  · rintro ⟨y, hy | ⟨hi, rfl⟩, hfirst⟩
    · rw [List.idxOf_append_of_mem (List.mem_of_getElem? hy)] at hfirst
      exact Or.inl ⟨y, hy, hfirst⟩
    · exact Or.inr ⟨hi, hnew.symm.trans hfirst⟩
  · rintro (⟨y, hy, hfirst⟩ | ⟨hi, hfirst⟩)
    · exact ⟨y, Or.inl hy, (List.idxOf_append_of_mem (List.mem_of_getElem? hy)).trans hfirst⟩
    · exact ⟨x, Or.inr ⟨hi, rfl⟩, hnew.trans hfirst⟩

theorem exists_getElem?_concat_iff {xs : List Nat} {x y : Nat} {P : Nat → Prop}
    (hlt : ∀ i, P i → i < xs.length) :
    (∃ i, (xs ++ [x])[i]? = some y ∧ P i) ↔ ∃ i, xs[i]? = some y ∧ P i := by
  refine exists_congr fun i => and_congr_left fun hi => ?_
  rw [List.getElem?_append_left (hlt i hi)]

/-- The flags after `steps` say which handles belong together and which families were triggered. The
origin of a handle is the first one with its flag. -/
structure Tracks (steps : List Step) : Prop where
  lt_of_mem : ∀ flag ∈ (empty.run steps).flagOf, flag < (empty.run steps).flags.length
  goesBackTo_iff : ∀ handle origin, GoesBackTo steps handle origin ↔
    ∃ flag, (empty.run steps).flagOf[handle]? = some flag ∧ (empty.run steps).flagOf.idxOf flag = origin
  lt_of_wasTriggered : ∀ handle, WasTriggered steps handle → handle < (empty.run steps).count
  flag_iff : ∀ flag, (empty.run steps).flags[flag]? = some true ↔
    ∃ handle, (empty.run steps).flagOf[handle]? = some flag ∧ WasTriggered steps handle

theorem tracks_nil : Tracks [] where
  lt_of_mem := List.forall_mem_nil _
  goesBackTo_iff handle origin := by
    constructor
    · generalize hnil : ([] : List Step) = steps
      intro hback
      cases hback <;> simp at hnil
    · rintro ⟨flag, hflag, -⟩
      cases hflag
  lt_of_wasTriggered := by
    rintro handle ⟨before, after, hsteps, -⟩
    simp at hsteps
  flag_iff flag := by
    constructor
    · intro hflag
      cases hflag
    · rintro ⟨handle, hflag, -⟩
      cases hflag

theorem Tracks.new (ht : Tracks steps) : Tracks (steps ++ [.new]) := by
  obtain ⟨hlt, hback, htrigger, hflag⟩ := ht
  have hsame : ∀ handle, WasTriggered (steps ++ [.new]) handle ↔ WasTriggered steps handle := by
    simp [wasTriggered_concat_iff]
  have hbackConcat : ∀ handle origin, GoesBackTo (steps ++ [.new]) handle origin ↔
      GoesBackTo steps handle origin ∨
        handle = (empty.run steps).count ∧ origin = (empty.run steps).count := by
    simp [goesBackTo_concat_iff]
  -- the flag is new, so its first handle is the one that is made
  have hfresh : (empty.run steps).flagOf.idxOf (empty.run steps).flags.length =
      (empty.run steps).count :=
    List.idxOf_of_notMem fun hmem => Nat.lt_irrefl _ (hlt _ hmem)
  constructor
  all_goals simp only [run_concat, step, hsame, hbackConcat]
  · intro flag hmem
    rw [List.length_append, List.length_singleton]
    rcases List.mem_append.mp hmem with hmem | hmem
    · exact Nat.lt_succ_of_lt (hlt flag hmem)
    · rw [List.mem_singleton.mp hmem]
      exact Nat.lt_succ_self _
  · intro handle origin
    rw [exists_idxOf_concat_iff, hback, hfresh, eq_comm (a := origin)]
    rfl
  · intro handle hwas
    exact Nat.lt_of_lt_of_le (htrigger handle hwas) (by simp [count])
  · intro flag
    rw [exists_getElem?_concat_iff htrigger, getElem?_concat_eq_some_iff, hflag]
    simp

theorem Tracks.clone (ht : Tracks steps) (source : Nat) : Tracks (steps ++ [.clone source]) := by
  obtain ⟨hlt, hback, htrigger, hflag⟩ := ht
  have hsame : ∀ handle, WasTriggered (steps ++ [.clone source]) handle ↔ WasTriggered steps handle := by
    simp [wasTriggered_concat_iff]
  have hbackConcat : ∀ handle origin, GoesBackTo (steps ++ [.clone source]) handle origin ↔
      GoesBackTo steps handle origin ∨
        handle = (empty.run steps).count ∧ GoesBackTo steps source origin := by
    simp [goesBackTo_concat_iff]
  cases hsource : (empty.run steps).flagOf[source]? with
  | none =>
    have hsteps : empty.run (steps ++ [.clone source]) = empty.run steps := by
      simp only [run_concat, step, hsource]
    have hnone : ∀ origin, ¬GoesBackTo steps source origin := by
      simp [hback, hsource]
    constructor
    all_goals simp only [hsteps, hsame, hbackConcat, hnone, and_false, or_false]
    · exact hlt
    · exact hback
    · exact htrigger
    · exact hflag
  | some shared =>
    have hsteps : empty.run (steps ++ [.clone source]) =
        ⟨(empty.run steps).flagOf ++ [shared], (empty.run steps).flags⟩ := by
      simp only [run_concat, step, hsource]
    have horigin : ∀ origin, GoesBackTo steps source origin ↔
        (empty.run steps).flagOf.idxOf shared = origin := by
      simp [hback, hsource]
    constructor
    all_goals simp only [hsteps, hsame, hbackConcat]
    · intro flag hmem
      rcases List.mem_append.mp hmem with hmem | hmem
      · exact hlt flag hmem
      · exact List.mem_singleton.mp hmem ▸ hlt shared (List.mem_of_getElem? hsource)
    · intro handle origin
      rw [exists_idxOf_concat_iff, hback, horigin]
      rfl
    · intro handle hwas
      exact Nat.lt_of_lt_of_le (htrigger handle hwas) (by simp [count])
    · intro flag
      rw [exists_getElem?_concat_iff htrigger, hflag]

theorem Tracks.trigger (ht : Tracks steps) (source : Nat) : Tracks (steps ++ [.trigger source]) := by
  obtain ⟨hlt, hback, htrigger, hflag⟩ := ht
  have hsame : ∀ handle origin, GoesBackTo (steps ++ [.trigger source]) handle origin ↔
      GoesBackTo steps handle origin := by
    simp [goesBackTo_concat_iff]
  have htriggerConcat : ∀ handle, WasTriggered (steps ++ [.trigger source]) handle ↔
      WasTriggered steps handle ∨ source = handle ∧ handle < (empty.run steps).count := by
    simp [wasTriggered_concat_iff]
  cases hsource : (empty.run steps).flagOf[source]? with
  | none =>
    have hsteps : empty.run (steps ++ [.trigger source]) = empty.run steps := by
      simp only [run_concat, step, hsource]
    have hnone : ∀ handle, ¬(source = handle ∧ handle < (empty.run steps).count) := by
      rintro handle ⟨rfl, hlt⟩
      exact absurd (List.getElem?_eq_none_iff.mp hsource) (Nat.not_le_of_lt hlt)
    constructor
    all_goals simp only [hsteps, hsame, htriggerConcat, hnone, or_false]
    · exact hlt
    · exact hback
    · exact htrigger
    · exact hflag
  | some shared =>
    have hsteps : empty.run (steps ++ [.trigger source]) =
        ⟨(empty.run steps).flagOf, (empty.run steps).flags.set shared true⟩ := by
      simp only [run_concat, step, hsource]
    have hshared : shared < (empty.run steps).flags.length := hlt shared (List.mem_of_getElem? hsource)
    have hexists : source < (empty.run steps).count := (List.getElem?_eq_some_iff.mp hsource).1
    have hset : ∀ flag, ((empty.run steps).flags.set shared true)[flag]? = some true ↔
        (empty.run steps).flags[flag]? = some true ∨ shared = flag := by
      intro flag
      rw [List.getElem?_set]
      by_cases hsame : shared = flag
      · rw [← hsame, if_pos rfl, if_pos hshared]
        simp
      · simp [hsame]
    constructor
    all_goals simp only [hsteps, hsame, htriggerConcat]
    · rw [List.length_set]
      exact hlt
    · exact hback
    · rintro handle (hwas | ⟨-, hlt⟩)
      · exact htrigger handle hwas
      · exact hlt
    · intro flag
      rw [hset, hflag]
      constructor
      · rintro (⟨handle, hget, hwas⟩ | rfl)
        · exact ⟨handle, hget, Or.inl hwas⟩
        · exact ⟨source, hsource, Or.inr ⟨rfl, hexists⟩⟩
      · rintro ⟨handle, hget, hwas | ⟨rfl, -⟩⟩
        · exact Or.inl ⟨handle, hget, hwas⟩
        · exact Or.inr (Option.some.inj (hsource.symm.trans hget))

theorem tracks (steps : List Step) : Tracks steps := by
  induction steps using List.reverseRecOn with
  | nil => exact tracks_nil
  | append_singleton steps step ih =>
    cases step with
    | new => exact ih.new
    | clone source => exact ih.clone source
    | trigger source => exact ih.trigger source

/-! ### Who is triggered -/

theorem sameFamily_iff : SameFamily steps handle other ↔ ∃ flag,
    (empty.run steps).flagOf[handle]? = some flag ∧ (empty.run steps).flagOf[other]? = some flag := by
  simp only [SameFamily, (tracks steps).goesBackTo_iff]
  constructor
  · rintro ⟨origin, ⟨flag, hhandle, rfl⟩, flag', hother, hfirst⟩
    have hsame : flag' = flag :=
      (List.idxOf_inj (List.mem_of_getElem? hother)).mp hfirst
    exact ⟨flag, hhandle, hsame ▸ hother⟩
  · rintro ⟨flag, hhandle, hother⟩
    exact ⟨_, ⟨flag, hhandle, rfl⟩, flag, hother, rfl⟩

theorem isTriggered_run_iff : (empty.run steps).isTriggered handle ↔
    ∃ other, SameFamily steps handle other ∧ WasTriggered steps other := by
  simp only [isTriggered_iff, (tracks steps).flag_iff, sameFamily_iff]
  constructor
  · rintro ⟨flag, hhandle, other, hother, hwas⟩
    exact ⟨other, ⟨flag, hhandle, hother⟩, hwas⟩
  · rintro ⟨other, ⟨flag, hhandle, hother⟩, hwas⟩
    exact ⟨flag, hhandle, other, hother, hwas⟩

theorem SameFamily.append (h : SameFamily steps handle other) (more : List Step) :
    SameFamily (steps ++ more) handle other := by
  obtain ⟨origin, hhandle, hother⟩ := h
  exact ⟨origin, hhandle.append more, hother.append more⟩

/-- No step takes a request to stop back. -/
theorem isTriggered_run_append (h : (empty.run steps).isTriggered handle) (more : List Step) :
    (empty.run (steps ++ more)).isTriggered handle := by
  obtain ⟨other, hsame, hwas⟩ := isTriggered_run_iff.mp h
  exact isTriggered_run_iff.mpr ⟨other, hsame.append more, hwas.append more⟩

theorem exists_flag (hlt : handle < (empty.run steps).count) : ∃ flag,
    (empty.run steps).flagOf[handle]? = some flag ∧ flag < (empty.run steps).flags.length := by
  have hget := List.getElem?_eq_getElem hlt
  exact ⟨_, hget, (tracks steps).lt_of_mem _ (List.mem_of_getElem? hget)⟩

/-- A step that does not trigger the family of a handle does not concern the handle. -/
theorem isTriggered_run_concat (hlt : handle < (empty.run steps).count)
    (hother : ∀ other, step = .trigger other → ¬SameFamily steps handle other) :
    (empty.run (steps ++ [step])).isTriggered handle = (empty.run steps).isTriggered handle := by
  obtain ⟨flag, hflag, hvalue⟩ := exists_flag hlt
  rw [run_concat]
  cases step with
  | new =>
    have hflag' : ((empty.run steps).flagOf ++ [(empty.run steps).flags.length])[handle]? = some flag :=
      (List.getElem?_append_left hlt).trans hflag
    simp only [Handles.step, isTriggered, hflag, hflag', List.getD_eq_getElem?_getD,
      List.getElem?_append_left hvalue]
  | clone source =>
    cases hsource : (empty.run steps).flagOf[source]? with
    | none => simp only [Handles.step, hsource]
    | some shared =>
      have hflag' : ((empty.run steps).flagOf ++ [shared])[handle]? = some flag :=
        (List.getElem?_append_left hlt).trans hflag
      simp only [Handles.step, hsource, isTriggered, hflag, hflag']
  | trigger source =>
    cases hsource : (empty.run steps).flagOf[source]? with
    | none => simp only [Handles.step, hsource]
    | some shared =>
      have hne : shared ≠ flag := by
        rintro rfl
        exact hother source rfl (sameFamily_iff.mpr ⟨shared, hflag, hsource⟩)
      simp only [Handles.step, hsource, isTriggered, hflag, List.getD_eq_getElem?_getD,
        List.getElem?_set_ne hne]

theorem isTriggered_run_clone (hlt : handle < (empty.run steps).count) :
    (empty.run (steps ++ [.clone handle])).isTriggered (empty.run steps).count =
      (empty.run steps).isTriggered handle := by
  obtain ⟨flag, hflag, -⟩ := exists_flag hlt
  rw [run_concat]
  simp only [Handles.step, hflag, isTriggered, count, List.getElem?_concat_length]

/-- A handle is triggered exactly when one of its family was. So a clone is what the handle it is made
from is, steps on other families do not matter, and what is triggered stays so. -/
theorem isTriggered_run_iff_sameFamily (steps : List Step) (handle : Nat) :
    ((empty.run steps).isTriggered handle ↔
        ∃ other, SameFamily steps handle other ∧ WasTriggered steps other) ∧
      (handle < (empty.run steps).count →
        (empty.run (steps ++ [.clone handle])).isTriggered (empty.run steps).count =
          (empty.run steps).isTriggered handle) ∧
      (∀ step, handle < (empty.run steps).count →
        (∀ other, step = .trigger other → ¬SameFamily steps handle other) →
          (empty.run (steps ++ [step])).isTriggered handle = (empty.run steps).isTriggered handle) ∧
      ∀ more, (empty.run steps).isTriggered handle → (empty.run (steps ++ more)).isTriggered handle :=
  ⟨isTriggered_run_iff, isTriggered_run_clone, fun _ => isTriggered_run_concat,
    fun more h => isTriggered_run_append h more⟩

/-- The first handle is triggered by its clone, and so is a clone made later, but not the handle that was
made afresh. -/
theorem isTriggered_run_iff_sameFamily_two_families :
    (single.run [.clone 0, .new, .trigger 1]).isTriggered 0 ∧
      (single.run [.clone 0, .new, .trigger 1, .clone 0]).isTriggered 3 ∧
      (single.run [.clone 0, .new, .trigger 1]).isTriggered 2 = false := by
  have hfirst : GoesBackTo [.new, .clone 0, .new, .trigger 1] 0 0 := (GoesBackTo.new []).append _
  have hclone : GoesBackTo [.new, .clone 0, .new, .trigger 1] 1 0 :=
    (GoesBackTo.clone (.new [])).append [.new, .trigger 1]
  have hwas : WasTriggered [.new, .clone 0, .new, .trigger 1] 1 :=
    ⟨[.new, .clone 0, .new], [], rfl, by decide⟩
  have htriggered : (single.run [.clone 0, .new, .trigger 1]).isTriggered 0 :=
    (isTriggered_run_iff_sameFamily [.new, .clone 0, .new, .trigger 1] 0).1.mpr
      ⟨1, ⟨0, hfirst, hclone⟩, hwas⟩
  have hother : ¬SameFamily [.new, .clone 0, .new] 2 1 := by
    rw [sameFamily_iff]
    rintro ⟨flag, htwo, hone⟩
    cases htwo
    cases hone
  refine ⟨htriggered, ?_, ?_⟩
  · have hsame := (isTriggered_run_iff_sameFamily [.new, .clone 0, .new, .trigger 1] 0).2.1 (by decide)
    exact hsame.trans htriggered
  · refine (isTriggered_run_iff_sameFamily [.new, .clone 0, .new] 2).2.2.1 (.trigger 1) (by decide) ?_
    intro other hstep
    cases hstep
    exact hother

end HttpEcho.Handles
