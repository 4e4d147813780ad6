import HttpEcho.Headers
import HttpEcho.Proofs.Entries

/-!
# Headers as a map

Setting headers one after the other gives a map: no name is there twice, whatever its spelling, each has
the value that was set last, and it stays at the place and in the spelling in which it first came. Where
the names in the map and those to be set are each distinct, the result can be written down at once: the
old headers with new values, and behind them the headers that were not there.
-/

namespace HttpEcho

theorem filter_sameName_eq_singleton {fields : Headers} {field : Text × Text}
    (hnodup : (fields.map fun other => Text.lowerAscii other.1).Nodup) (hfield : field ∈ fields) :
    fields.filter (fun other => Text.SameName other.1 field.1) = [field] := by
  induction fields with
  | nil => cases hfield
  | cons other fields ih =>
    rw [List.map_cons, List.nodup_cons] at hnodup
    obtain ⟨hother, hnodup⟩ := hnodup
    rcases List.mem_cons.mp hfield with rfl | hfield
    · have hnone : fields.filter (fun other => Text.SameName other.1 field.1) = [] := by
        rw [List.filter_eq_nil_iff]
        intro other hmem hsame
        apply hother
        rw [← of_decide_eq_true hsame]
        exact List.mem_map_of_mem hmem
      rw [List.filter_cons, if_pos (decide_eq_true (Text.SameName.refl field.1)), hnone]
    · have hne : ¬Text.SameName other.1 field.1 := by
        intro hsame
        apply hother
        rw [hsame]
        exact List.mem_map_of_mem hfield
      rw [List.filter_cons_of_neg (by simpa using hne), ih hnodup hfield]

namespace Headers

variable {headers fields : Headers} {name value : Text}

/-- No two headers have the same name. -/
def Distinct (headers : Headers) : Prop :=
  headers.Pairwise fun a b => ¬Text.SameName a.1 b.1

def setAll (headers fields : Headers) : Headers :=
  fields.foldl (fun headers field => headers.set field.1 field.2) headers

/-- Of names that are the same the first one, each at its place. -/
def firstSpellings : List Text → List Text
  | [] => []
  | name :: names =>
    name :: (firstSpellings names).filter fun other => !decide (Text.SameName name other)

/-- The headers in their places, with the values of the fields that have their names. -/
def withValues (headers fields : Headers) : Headers :=
  headers.map fun field => (field.1, (fields.first? field.1).getD field.2)

/-! ### Looking up -/

theorem first?_cons (field : Text × Text) (headers : Headers) (name : Text) :
    first? (field :: headers) name =
      if Text.SameName field.1 name then some field.2 else headers.first? name := by
  rw [first?, Entries.find?_cons]
  by_cases hname : Text.SameName field.1 name <;> simp [hname, first?]

theorem last?_concat (headers : Headers) (field : Text × Text) (name : Text) :
    last? (headers ++ [field]) name =
      if Text.SameName field.1 name then some field.2 else headers.last? name := by
  rw [last?, List.reverse_concat, first?_cons, last?]

/-- Of the headers with a name the last one is found. -/
theorem last?_eq_getLast? (headers : Headers) (name : Text) :
    headers.last? name =
      (headers.filter fun field => Text.SameName field.1 name).getLast?.map Prod.snd := by
  induction headers using List.reverseRecOn with
  | nil => rfl
  | append_singleton headers field ih =>
    rw [last?_concat, ih, List.filter_append]
    by_cases hname : Text.SameName field.1 name <;> simp [hname]

theorem first?_congr {other : Text} (h : Text.SameName name other) (headers : Headers) :
    headers.first? name = headers.first? other := by
  have hsame : ∀ n, Text.SameName n name ↔ Text.SameName n other := fun n =>
    ⟨fun hn => hn.trans h, fun hn => hn.trans h.symm⟩
  simp only [first?, hsame]

theorem first?_set (headers : Headers) (name value other : Text) :
    (headers.set name value).first? other =
      if Text.SameName name other then some value else headers.first? other := by
  split
  · next hname =>
    have hfind : (headers.set name value).first? name =
        some ((headers.first? name).elim value fun _ => value) :=
      Entries.find?_upsert_self (by simp [Text.SameName.refl]) headers
    rw [← first?_congr hname, hfind]
    cases headers.first? name <;> rfl
  · next hname =>
    apply Entries.find?_upsert_of_not
    · intro n hn hother
      exact hname ((of_decide_eq_true hn).symm.trans (of_decide_eq_true hother))
    · simpa using hname

theorem setAll_cons (headers : Headers) (field : Text × Text) (fields : Headers) :
    headers.setAll (field :: fields) = (headers.set field.1 field.2).setAll fields := rfl

theorem setAll_append (headers first second : Headers) :
    headers.setAll (first ++ second) = (headers.setAll first).setAll second :=
  List.foldl_append

/-- The last value that was set counts, and the old one if none was set. -/
theorem first?_setAll (headers fields : Headers) (name : Text) :
    (headers.setAll fields).first? name = (fields.last? name).or (headers.first? name) := by
  induction fields using List.reverseRecOn with
  | nil => rfl
  | append_singleton fields field ih =>
    rw [setAll_append, setAll_cons, setAll, List.foldl_nil, first?_set, ih, last?_concat]
    split <;> rfl

/-! ### Names -/

theorem distinct_iff_keys :
    headers.Distinct ↔ (Entries.keys headers).Pairwise fun a b => ¬Text.SameName a b := by
  rw [Distinct, Entries.keys, List.pairwise_map]

theorem Distinct.set (h : headers.Distinct) (name value : Text) :
    (headers.set name value).Distinct := by
  rw [distinct_iff_keys] at h ⊢
  apply Entries.pairwise_keys_upsert _ h
  simp

theorem Distinct.setAll (h : headers.Distinct) (fields : Headers) :
    (headers.setAll fields).Distinct := by
  induction fields generalizing headers with
  | nil => exact h
  | cons field fields ih => exact ih (h.set field.1 field.2)

theorem any_firstSpellings (names : List Text) (name : Text) :
    (firstSpellings names).any (fun n => decide (Text.SameName n name)) =
      names.any fun n => decide (Text.SameName n name) := by
  induction names with
  | nil => rfl
  | cons first names ih =>
    rw [firstSpellings, List.any_cons, List.any_cons, ← ih, List.any_filter]
    by_cases hfirst : Text.SameName first name
    · simp [hfirst]
    · -- a name dropped for `first` is the same as that one, so not the same as `name`
      have hdropped : ∀ n, Text.SameName n name → ¬Text.SameName first n := fun n hn hsame =>
        hfirst (hsame.trans hn)
      simp only [hfirst, decide_false, Bool.false_or]
      congr 1
      funext n
      by_cases hn : Text.SameName n name <;> simp [hn, hdropped n]

theorem firstSpellings_concat (names : List Text) (name : Text) :
    firstSpellings (names ++ [name]) = firstSpellings names ++
      if names.any fun n => decide (Text.SameName n name) then [] else [name] := by
  induction names with
  | nil => rfl
  | cons first names ih =>
    rw [List.cons_append, firstSpellings, ih, List.filter_append, firstSpellings, List.cons_append,
      List.any_cons]
    by_cases hnames : names.any fun n => decide (Text.SameName n name)
    · simp [hnames]
    · by_cases hfirst : Text.SameName first name <;> simp [hnames, hfirst]

theorem firstSpellings_isPrefix (names more : List Text) :
    firstSpellings names <+: firstSpellings (names ++ more) := by
  induction more using List.reverseRecOn with
  | nil => simp
  | append_singleton more name ih =>
    rw [← List.append_assoc, firstSpellings_concat]
    exact ih.trans (List.prefix_append _ _)

/-- The names in a map are those that were set, each where and as it first came. -/
theorem keys_setAll_nil (fields : Headers) :
    Entries.keys (setAll [] fields) = firstSpellings (Entries.keys fields) := by
  induction fields using List.reverseRecOn with
  | nil => rfl
  | append_singleton fields field ih =>
    have hkeys : Entries.keys (fields ++ [field]) = Entries.keys fields ++ [field.1] :=
      List.map_append
    rw [setAll_append, setAll_cons, setAll, List.foldl_nil, set, Entries.keys_upsert, ih,
      any_firstSpellings, hkeys, firstSpellings_concat]
    split
    · rw [List.append_nil]
    · rfl

/-! ### Distinct names -/

theorem first?_eq_none_iff :
    headers.first? name = none ↔ ∀ field ∈ headers, ¬Text.SameName field.1 name := by
  rw [first?, Entries.find?, Option.map_eq_none_iff, List.find?_eq_none]
  simp only [decide_eq_true_eq]

theorem exists_mem_of_first? (h : headers.first? name = some value) :
    ∃ n, (n, value) ∈ headers ∧ Text.SameName n name := by
  rw [first?, Entries.find?, Option.map_eq_some_iff] at h
  obtain ⟨⟨n, v⟩, hfind, rfl⟩ := h
  exact ⟨n, List.mem_of_find?_eq_some hfind, by simpa using List.find?_some hfind⟩

theorem Distinct.reverse (h : headers.Distinct) : Distinct headers.reverse := by
  rw [Distinct, List.pairwise_reverse]
  exact h.imp fun hne hsame => hne hsame.symm

theorem Distinct.first?_of_mem (h : headers.Distinct) {field : Text × Text} (hfield : field ∈ headers) :
    headers.first? field.1 = some field.2 := by
  induction headers with
  | nil => cases hfield
  | cons other headers ih =>
    obtain ⟨hother, h⟩ := List.pairwise_cons.mp h
    rw [first?_cons]
    rcases List.mem_cons.mp hfield with rfl | hfield
    · rw [if_pos (Text.SameName.refl _)]
    · rw [if_neg (hother field hfield), ih h hfield]

theorem Distinct.last?_of_mem (h : headers.Distinct) {field : Text × Text} (hfield : field ∈ headers) :
    headers.last? field.1 = some field.2 :=
  h.reverse.first?_of_mem (List.mem_reverse.mpr hfield)

theorem set_of_first?_eq_none (h : headers.first? name = none) (value : Text) :
    headers.set name value = headers ++ [(name, value)] := by
  induction headers with
  | nil => rfl
  | cons field headers ih =>
    rw [first?_cons] at h
    split at h
    · cases h
    · next hname => rw [set, Entries.upsert, if_neg (by simpa using hname), ← set, ih h]; rfl

theorem set_of_first?_eq_some (h : headers.first? name = some value) :
    headers.set name value = headers := by
  induction headers with
  | nil => cases h
  | cons field headers ih =>
    rw [first?_cons] at h
    split at h
    · next hname =>
      rw [set, Entries.upsert, if_pos (by simpa using hname), ← Option.some.inj h]
    · next hname => rw [set, Entries.upsert, if_neg (by simpa using hname), ← set, ih h]

/-- Setting what is there already changes nothing. -/
theorem setAll_setAll (hfields : fields.Distinct) (headers : Headers) :
    (headers.setAll fields).setAll fields = headers.setAll fields := by
  have hthere : ∀ field ∈ fields, (headers.setAll fields).first? field.1 = some field.2 := by
    intro field hfield
    rw [first?_setAll, hfields.last?_of_mem hfield, Option.some_or]
  generalize headers.setAll fields = all at hthere
  clear hfields
  induction fields with
  | nil => rfl
  | cons field fields ih =>
    rw [List.forall_mem_cons] at hthere
    rw [setAll_cons, set_of_first?_eq_some hthere.1, ih hthere.2]

theorem withValues_eq_self (h : ∀ field ∈ headers, fields.first? field.1 = none) :
    headers.withValues fields = headers := by
  calc headers.withValues fields = headers.map id := by
        refine List.map_congr_left fun field hfield => ?_
        rw [h field hfield]
        rfl
    _ = headers := List.map_id headers

theorem withValues_cons_of_first?_eq_none {field : Text × Text} (h : headers.first? field.1 = none)
    (fields : Headers) : headers.withValues (field :: fields) = headers.withValues fields := by
  refine List.map_congr_left fun old hmem => ?_
  rw [first?_cons, if_neg fun hsame => first?_eq_none_iff.mp h old hmem hsame.symm]

/-- Fields with different names give their values one after the other. -/
theorem withValues_cons {field : Text × Text} (hlater : fields.first? field.1 = none)
    (headers : Headers) :
    headers.withValues (field :: fields) = (headers.withValues [field]).withValues fields := by
  rw [withValues, withValues, withValues, List.map_map]
  refine List.map_congr_left fun old _ => ?_
  rw [Function.comp_apply, first?_cons, first?_cons]
  by_cases hsame : Text.SameName field.1 old.1
  · rw [if_pos hsame, if_pos hsame, ← first?_congr hsame, hlater]
    rfl
  · rw [if_neg hsame, if_neg hsame]
    rfl

/-- A name that is there keeps its place and its spelling. -/
theorem Distinct.set_of_first?_ne_none (h : headers.Distinct) (hname : headers.first? name ≠ none)
    (value : Text) : headers.set name value = headers.withValues [(name, value)] := by
  induction headers with
  | nil => exact absurd rfl hname
  | cons field headers ih =>
    obtain ⟨hother, h⟩ := List.pairwise_cons.mp h
    rw [first?_cons] at hname
    rw [Headers.set, Entries.upsert, withValues, List.map_cons, ← withValues, first?_cons]
    by_cases hsame : Text.SameName field.1 name
    · have hrest : ∀ other ∈ headers, first? [(name, value)] other.1 = none := by
        intro other hmem
        rw [first?_cons, if_neg fun hsame' => hother other hmem (hsame.trans hsame')]
        rfl
      rw [if_pos (by simpa using hsame), if_pos hsame.symm, withValues_eq_self hrest]
      rfl
    · rw [if_neg hsame] at hname
      rw [if_neg (by simpa using hsame), if_neg fun h => hsame h.symm, ← Headers.set, ih h hname]
      rfl

/-- The old headers with the values that were set, and then the headers that are new. -/
theorem Distinct.setAll_eq (hheaders : headers.Distinct) (hfields : fields.Distinct) :
    headers.setAll fields =
      headers.withValues fields ++ fields.filter fun field => (headers.first? field.1).isNone := by
  induction fields generalizing headers with
  | nil =>
    rw [withValues_eq_self fun _ _ => rfl, List.filter_nil, List.append_nil]
    rfl
  | cons field fields ih =>
    obtain ⟨hother, hfields⟩ := List.pairwise_cons.mp hfields
    have hlater : first? fields field.1 = none :=
      first?_eq_none_iff.mpr fun other hmem hsame => hother other hmem hsame.symm
    have hnew : fields.filter (fun other => ((headers.set field.1 field.2).first? other.1).isNone) =
        fields.filter fun other => (headers.first? other.1).isNone := by
      refine List.filter_congr fun other hmem => ?_
      rw [first?_set, if_neg (hother other hmem)]
    rw [setAll_cons, ih (hheaders.set field.1 field.2) hfields, hnew]
    by_cases hthere : headers.first? field.1 = none
    · have hend : withValues (headers ++ [field]) fields = headers.withValues fields ++ [field] := by
        rw [withValues, List.map_append, List.map_singleton, hlater]
        rfl
      rw [set_of_first?_eq_none hthere, hend, withValues_cons_of_first?_eq_none hthere,
        List.filter_cons_of_pos (by rw [hthere]; rfl), List.append_assoc]
      rfl
    · rw [hheaders.set_of_first?_ne_none hthere, withValues_cons hlater,
        List.filter_cons_of_neg (by simpa using hthere)]

/-- Headers of other names stay as they are. -/
theorem Distinct.filter_setAll (hheaders : headers.Distinct) (hfields : fields.Distinct) :
    (headers.setAll fields).filter (fun field => (fields.first? field.1).isNone) =
      headers.filter fun field => (fields.first? field.1).isNone := by
  have hold : (headers.withValues fields).filter (fun field => (fields.first? field.1).isNone) =
      headers.filter fun field => (fields.first? field.1).isNone := by
    rw [withValues, List.filter_map]
    apply withValues_eq_self
    intro field hfield
    simpa using (List.mem_filter.mp hfield).2
  have hnew : (fields.filter fun field => (headers.first? field.1).isNone).filter
      (fun field => (fields.first? field.1).isNone) = [] := by
    rw [List.filter_eq_nil_iff]
    intro field hfield
    rw [hfields.first?_of_mem (List.mem_filter.mp hfield).1]
    exact Bool.false_ne_true
  rw [hheaders.setAll_eq hfields, List.filter_append, hold, hnew, List.append_nil]

/-- A name that is found belongs to one header only. -/
theorem Distinct.filter_sameName (h : headers.Distinct) (hname : headers.first? name = some value) :
    ∃ n, Text.SameName n name ∧
      headers.filter (fun field => Text.SameName field.1 name) = [(n, value)] := by
  obtain ⟨n, hmem, hsame⟩ := exists_mem_of_first? hname
  have hnodup : (headers.map fun field => Text.lowerAscii field.1).Nodup := List.pairwise_map.mpr h
  refine ⟨n, hsame, ?_⟩
  rw [← filter_sameName_eq_singleton hnodup hmem]
  refine List.filter_congr fun field _ => ?_
  exact decide_eq_decide.mpr ⟨fun hfield => hfield.trans hsame.symm, fun hfield => hfield.trans hsame⟩

end Headers

end HttpEcho
