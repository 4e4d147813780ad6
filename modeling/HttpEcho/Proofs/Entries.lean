import HttpEcho.Entries
import Mathlib.Data.List.Induction
import Mathlib.Data.List.Nodup

/-!
# Maps built from pairs

Putting pairs into a map one after the other leaves no key twice, and changes nothing if there was none
twice before. A key is looked up with the value that came last. Where the values of a key are kept as a
group, none is lost and the order stays.
-/

namespace HttpEcho.Entries

variable {α β : Type}

/-! ### One change -/

section Upsert

variable {same other : α → Bool} {change : β → β} {new : α × β}

theorem find?_cons (same : α → Bool) (entry : α × β) (entries : Entries α β) :
    find? same (entry :: entries) = if same entry.1 then some entry.2 else find? same entries := by
  rw [find?, find?, List.find?_cons]
  cases same entry.1 <;> rfl

theorem find?_upsert_self (hnew : same new.1) (entries : Entries α β) :
    find? same (upsert same change new entries) = some ((find? same entries).elim new.2 change) := by
  induction entries with
  | nil => rw [upsert, find?_cons, if_pos hnew]; rfl
  | cons entry entries ih =>
    by_cases hsame : same entry.1
    · rw [upsert, if_pos hsame, find?_cons, find?_cons, if_pos hsame, if_pos hsame]
      rfl
    · rw [upsert, if_neg hsame, find?_cons, find?_cons, if_neg hsame, if_neg hsame, ih]

/-- A change of one key is not seen by a search for other keys. -/
theorem find?_upsert_of_not (hkeys : ∀ key, same key → ¬other key) (hnew : ¬other new.1)
    (entries : Entries α β) :
    find? other (upsert same change new entries) = find? other entries := by
  induction entries with
  | nil => rw [upsert, find?_cons, if_neg hnew]
  | cons entry entries ih =>
    by_cases hsame : same entry.1
    · have hother := hkeys entry.1 hsame
      rw [upsert, if_pos hsame, find?_cons, find?_cons, if_neg hother, if_neg hother]
    · rw [upsert, if_neg hsame, find?_cons, find?_cons, ih]

/-- Keys that differ stay so if a key that is not the same as another differs from it. -/
theorem pairwise_keys_upsert {differ : α → α → Prop} (hnew : ∀ key, ¬same key → differ key new.1)
    {entries : Entries α β} (h : (keys entries).Pairwise differ) :
    (keys (upsert same change new entries)).Pairwise differ := by
  rw [keys_upsert]
  split
  · exact h
  · next hnone =>
    rw [List.any_eq_true] at hnone
    refine List.pairwise_append.mpr ⟨h, List.pairwise_singleton _ _, ?_⟩
    intro key hkey last hlast
    rw [List.mem_singleton.mp hlast]
    exact hnew key fun hsame => hnone ⟨key, hkey, hsame⟩

end Upsert

/-! ### All changes -/

variable [DecidableEq α] {key : α} {value : β}

theorem ofList_concat (pairs : List (α × β)) (pair : α × β) :
    ofList (pairs ++ [pair]) = insert pair.1 pair.2 (ofList pairs) := by
  rw [ofList, List.foldl_append]
  rfl

theorem group_concat (pairs : List (α × β)) (pair : α × β) :
    group (pairs ++ [pair]) = push pair.1 pair.2 (group pairs) := by
  rw [group, List.foldl_append]
  rfl

theorem nodup_keys_ofList (pairs : List (α × β)) : (keys (ofList pairs)).Nodup := by
  induction pairs using List.reverseRecOn with
  | nil => exact List.nodup_nil
  | append_singleton pairs pair ih =>
    rw [ofList_concat]
    exact nodup_keys_insert ih pair.1 pair.2

theorem keys_push (key : α) (value : β) (groups : Entries α (List β)) :
    keys (push key value groups) = keys (insert key [value] groups) := by
  rw [push, insert, keys_upsert, keys_upsert]

theorem nodup_keys_group (pairs : List (α × β)) : (keys (group pairs)).Nodup := by
  induction pairs using List.reverseRecOn with
  | nil => exact List.nodup_nil
  | append_singleton pairs pair ih =>
    rw [group_concat, keys_push]
    exact nodup_keys_insert ih pair.1 [pair.2]

theorem insert_of_notMem {entries : Entries α β} (hkey : key ∉ keys entries) :
    insert key value entries = entries ++ [(key, value)] := by
  induction entries with
  | nil => rfl
  | cons entry rest ih =>
    rw [keys, List.map_cons, List.mem_cons, not_or] at hkey
    have hne : decide (entry.1 = key) = false := decide_eq_false (Ne.symm hkey.1)
    have hrest := ih hkey.2
    rw [insert] at hrest ⊢
    simp only [upsert, hne, Bool.false_eq_true, ↓reduceIte, hrest, List.cons_append]

theorem ofList_of_nodup {pairs : List (α × β)} (h : (keys pairs).Nodup) : ofList pairs = pairs := by
  induction pairs using List.reverseRecOn with
  | nil => rfl
  | append_singleton pairs pair ih =>
    rw [keys, List.map_append, List.map_singleton, List.nodup_append] at h
    obtain ⟨hpairs, -, hnew⟩ := h
    have hkey : pair.1 ∉ keys pairs := fun hmem =>
      hnew pair.1 hmem pair.1 (List.mem_singleton.mpr rfl) rfl
    rw [ofList_concat, ih hpairs, insert_of_notMem hkey]

theorem mem_of_mem_insert {entries : Entries α β} {entry : α × β}
    (h : entry ∈ insert key value entries) : entry = (key, value) ∨ entry ∈ entries := by
  induction entries with
  | nil => exact Or.inl (List.mem_singleton.mp h)
  | cons first rest ih =>
    rw [insert, upsert] at h
    split at h
    · next hsame =>
      rcases List.mem_cons.mp h with rfl | hmem
      · exact Or.inl (by rw [of_decide_eq_true hsame])
      · exact Or.inr (List.mem_cons_of_mem first hmem)
    · rcases List.mem_cons.mp h with rfl | hmem
      · exact Or.inr List.mem_cons_self
      · exact (ih hmem).imp_right (List.mem_cons_of_mem first)

theorem mem_of_mem_ofList {pairs : List (α × β)} {entry : α × β} (h : entry ∈ ofList pairs) :
    entry ∈ pairs := by
  induction pairs using List.reverseRecOn with
  | nil => exact h
  | append_singleton pairs pair ih =>
    rw [ofList_concat] at h
    rw [List.mem_append, List.mem_singleton]
    exact (mem_of_mem_insert h).symm.imp_left ih

/-- The values given for a key, in order. -/
def valuesOf (key : α) (pairs : List (α × β)) : List β :=
  (pairs.filter fun pair => pair.1 = key).map Prod.snd

theorem valuesOf_concat (key : α) (pairs : List (α × β)) (pair : α × β) :
    valuesOf key (pairs ++ [pair]) = valuesOf key pairs ++ if pair.1 = key then [pair.2] else [] := by
  rw [valuesOf, List.filter_append, List.map_append]
  by_cases hkey : pair.1 = key <;> simp [valuesOf, hkey]

theorem get?_insert (key other : α) (value : β) (entries : Entries α β) :
    get? other (insert key value entries) = if key = other then some value else get? other entries := by
  split
  · next hkey =>
    subst hkey
    have hfind : get? key (insert key value entries) =
        some ((find? (· = key) entries).elim value fun _ => value) :=
      find?_upsert_self (by simp) entries
    rw [hfind]
    cases find? (· = key) entries <;> rfl
  · next hkey =>
    apply find?_upsert_of_not
    · simpa using hkey
    · simpa using hkey

/-- The last value given for a key counts, whatever came for others. -/
theorem get?_ofList (key : α) (pairs : List (α × β)) :
    get? key (ofList pairs) = (valuesOf key pairs).getLast? := by
  induction pairs using List.reverseRecOn with
  | nil => rfl
  | append_singleton pairs pair ih =>
    rw [ofList_concat, get?_insert, valuesOf_concat, ih]
    by_cases hkey : pair.1 = key <;> simp [hkey]

/-! ### Maps of some keys -/

theorem keys_ofList [BEq α] [LawfulBEq α] (pairs : List (α × β)) :
    keys (ofList pairs) = (keys pairs).eraseDups := by
  induction pairs using List.reverseRecOn with
  | nil => rfl
  | append_singleton pairs pair ih =>
    have hkeys : keys (pairs ++ [pair]) = keys pairs ++ [pair.1] := List.map_append
    rw [ofList_concat, keys_insert, ih, hkeys, List.eraseDups_append]
    by_cases hold : pair.1 ∈ keys pairs <;> simp [List.removeAll, List.eraseDups_cons, hold]

theorem mem_insert_self (key : α) (value : β) (entries : Entries α β) :
    (key, value) ∈ insert key value entries := by
  induction entries with
  | nil => exact List.mem_singleton_self _
  | cons entry rest ih =>
    rw [insert] at ih ⊢
    by_cases hsame : entry.1 = key <;> simp [upsert, hsame, ih]

theorem mem_insert_of_ne {entries : Entries α β} {entry : α × β} (hkey : entry.1 ≠ key)
    (h : entry ∈ entries) : entry ∈ insert key value entries := by
  induction entries with
  | nil => cases h
  | cons first rest ih =>
    rw [insert] at ih ⊢
    rcases List.mem_cons.mp h with rfl | hrest
    · simp [upsert, hkey]
    · by_cases hsame : first.1 = key <;> simp [upsert, hsame, hrest, ih]

theorem mem_insert_iff {entries : Entries α β} (hkeys : (keys entries).Nodup) {entry : α × β} :
    entry ∈ insert key value entries ↔ entry = (key, value) ∨ entry.1 ≠ key ∧ entry ∈ entries := by
  constructor
  · intro h
    by_cases hkey : entry.1 = key
    · have hself := mem_insert_self key value entries
      exact Or.inl (List.inj_on_of_nodup_map (nodup_keys_insert hkeys key value) h hself hkey)
    · exact (mem_of_mem_insert h).imp_right fun hmem => ⟨hkey, hmem⟩
  · rintro (rfl | ⟨hkey, hmem⟩)
    · exact mem_insert_self key value entries
    · exact mem_insert_of_ne hkey hmem

/-- A map has of each key the pair that came last. -/
theorem mem_ofList_iff {pairs : List (α × β)} {entry : α × β} :
    entry ∈ ofList pairs ↔
      ∃ front back, pairs = front ++ entry :: back ∧ entry.1 ∉ keys back := by
  induction pairs using List.reverseRecOn with
  | nil => simp [ofList]
  | append_singleton pairs pair ih =>
    rw [ofList_concat, mem_insert_iff (nodup_keys_ofList pairs), ih]
    constructor
    · rintro (rfl | ⟨hkey, front, back, rfl, hback⟩)
      · exact ⟨pairs, [], rfl, List.not_mem_nil⟩
      · refine ⟨front, back ++ [pair], by simp, ?_⟩
        rw [keys, List.map_append, List.mem_append, not_or]
        exact ⟨hback, mt List.mem_singleton.mp hkey⟩
    · rintro ⟨front, back, hpairs, hback⟩
      rcases List.eq_nil_or_concat' back with rfl | ⟨back, last, rfl⟩
      · exact Or.inl (List.cons.inj (List.append_inj' hpairs rfl).2).1.symm
      · rw [← List.cons_append, ← List.append_assoc] at hpairs
        obtain ⟨rfl, hlast⟩ := List.append_inj' hpairs rfl
        rw [keys, List.map_append, List.mem_append, not_or] at hback
        rw [List.singleton_inj] at hlast
        subst hlast
        exact Or.inr ⟨mt List.mem_singleton.mpr hback.2, front, back, rfl, hback.1⟩

theorem filter_insert (p : α → Bool) (key : α) (value : β) (entries : Entries α β) :
    (insert key value entries).filter (fun entry => p entry.1) =
      if p key then insert key value (entries.filter fun entry => p entry.1)
      else entries.filter fun entry => p entry.1 := by
  induction entries with
  | nil => by_cases hp : p key <;> simp [insert, upsert, hp]
  | cons entry rest ih =>
    rw [insert] at ih ⊢
    by_cases hsame : entry.1 = key
    · by_cases hp : p key <;> simp [insert, upsert, hsame, hp]
    · rw [upsert, if_neg (by simpa using hsame), List.filter_cons, List.filter_cons, ih]
      by_cases hp : p key <;> by_cases hentry : p entry.1 <;> simp [insert, upsert, hsame, hp, hentry]

/-- Leaving out keys before or after makes no difference. -/
theorem filter_ofList (p : α → Bool) (pairs : List (α × β)) :
    (ofList pairs).filter (fun entry => p entry.1) = ofList (pairs.filter fun pair => p pair.1) := by
  induction pairs using List.reverseRecOn with
  | nil => rfl
  | append_singleton pairs pair ih =>
    rw [ofList_concat, filter_insert, ih, List.filter_append]
    by_cases hp : p pair.1 <;> simp [hp, ofList_concat]

theorem mem_ofList_of_getLast? {pairs : List (α × β)} {pair : α × β} (h : pairs.getLast? = some pair) :
    pair ∈ ofList pairs := by
  obtain ⟨front, rfl⟩ := List.getLast?_eq_some_iff.mp h
  rw [ofList_concat]
  exact mem_insert_self pair.1 pair.2 _

theorem ofList_of_forall_eq {pairs : List (α × β)} (h : ∀ pair ∈ pairs, pair.1 = key) :
    ofList pairs = pairs.getLast?.toList := by
  induction pairs using List.reverseRecOn with
  | nil => rfl
  | append_singleton pairs pair ih =>
    rw [List.forall_mem_append, List.forall_mem_singleton] at h
    rw [ofList_concat, ih h.1, List.getLast?_concat]
    cases hlast : pairs.getLast? with
    | none => rfl
    | some last =>
      have hkey : last.1 = pair.1 := (h.1 last (List.mem_of_getLast? hlast)).trans h.2.symm
      simp [insert, upsert, hkey]

/-- The last of all values is the only one if and only if there is only one key. -/
theorem map_snd_ofList_eq_iff [BEq α] [LawfulBEq α] {pairs : List (α × β)} :
    (ofList pairs).map Prod.snd = (pairs.getLast?.map Prod.snd).toList ↔
      ∀ first ∈ pairs, ∀ second ∈ pairs, first.1 = second.1 := by
  constructor
  · intro hvalues first hfirst second hsecond
    have hkeys : ∀ pair ∈ pairs, pair.1 ∈ keys (ofList pairs) := fun pair hpair => by
      rw [keys_ofList, List.mem_eraseDups]
      exact List.mem_map_of_mem hpair
    -- a second key would leave a second value
    have hlength : (keys (ofList pairs)).length = 1 := by
      obtain ⟨last, hlast⟩ := Option.ne_none_iff_exists'.mp
        (mt List.getLast?_eq_none_iff.mp (List.ne_nil_of_mem hfirst))
      have hone := congrArg List.length hvalues
      rw [hlast, List.length_map] at hone
      rw [keys, List.length_map, hone]
      rfl
    obtain ⟨key, hkey⟩ := List.length_eq_one_iff.mp hlength
    simp only [hkey, List.mem_singleton] at hkeys
    rw [hkeys first hfirst, hkeys second hsecond]
  · intro hsame
    cases hlast : pairs.getLast? with
    | none =>
      rw [List.getLast?_eq_none_iff.mp hlast]
      rfl
    | some last =>
      rw [ofList_of_forall_eq fun pair hpair => hsame pair hpair last (List.mem_of_getLast? hlast), hlast]
      rfl

/-! ### Groups -/

theorem valuesOf_of_notMem {pairs : List (α × β)} (hkey : key ∉ pairs.map Prod.fst) :
    valuesOf key pairs = [] := by
  rw [valuesOf, List.map_eq_nil_iff, List.filter_eq_nil_iff]
  intro pair hpair hsame
  rw [decide_eq_true_eq] at hsame
  exact hkey (hsame ▸ List.mem_map_of_mem hpair)

/-- The value goes to the group of its key, or to a new one at the end. -/
theorem push_map (key : α) (value : β) {keys : List α} (hkeys : keys.Nodup) (values : α → List β) :
    push key value (keys.map fun k => (k, values k)) =
      (keys.map fun k => (k, values k ++ if key = k then [value] else [])) ++
        if key ∈ keys then [] else [(key, [value])] := by
  induction keys with
  | nil => rfl
  | cons first keys ih =>
    rw [List.nodup_cons] at hkeys
    obtain ⟨hfirst, hkeys⟩ := hkeys
    have hrest := ih hkeys
    rw [push] at hrest ⊢
    by_cases hsame : first = key
    · subst hsame
      have hothers : keys.map (fun k => (k, values k ++ if first = k then [value] else [])) =
          keys.map fun k => (k, values k) := by
        refine List.map_congr_left fun k hk => ?_
        rw [if_neg (ne_of_mem_of_not_mem hk hfirst).symm, List.append_nil]
      simp [upsert, hothers]
    · simp [upsert, hsame, Ne.symm hsame, hrest]

/-- Grouping keeps the keys in the order in which they first come, each with its values in order. -/
theorem group_eq [BEq α] [LawfulBEq α] (pairs : List (α × β)) :
    group pairs = (pairs.map Prod.fst).eraseDups.map fun key => (key, valuesOf key pairs) := by
  induction pairs using List.reverseRecOn with
  | nil => rfl
  | append_singleton pairs pair ih =>
    have hnodup : (pairs.map Prod.fst).eraseDups.Nodup := by
      have hkeys := nodup_keys_group pairs
      rw [ih, keys, List.map_map] at hkeys
      exact (List.map_id _).subst hkeys
    rw [group_concat, ih, push_map pair.1 pair.2 hnodup, List.map_append, List.map_singleton,
      List.eraseDups_append, List.map_append]
    simp only [valuesOf_concat]
    congr 1
    by_cases hold : pair.1 ∈ pairs.map Prod.fst
    · have hnew : [pair.1].removeAll (pairs.map Prod.fst) = [] := by simp [List.removeAll, hold]
      rw [if_pos (List.mem_eraseDups.mpr hold), hnew]
      rfl
    · have hnew : [pair.1].removeAll (pairs.map Prod.fst) = [pair.1] := by
        simp [List.removeAll, hold]
      rw [if_neg (mt List.mem_eraseDups.mp hold), hnew]
      simp [List.eraseDups_cons, valuesOf_of_notMem hold]

/-! ### Groups of more pairs -/

/-- The groups with those of `more`: where a key is known its values go behind the old ones, and the groups
of new keys go to the end. -/
def extend (groups more : Entries α (List β)) : Entries α (List β) :=
  groups.map (fun group => (group.1, group.2 ++ (get? group.1 more).getD [])) ++
    more.filter fun group => group.1 ∉ keys groups

theorem valuesOf_append (key : α) (pairs more : List (α × β)) :
    valuesOf key (pairs ++ more) = valuesOf key pairs ++ valuesOf key more := by
  rw [valuesOf, List.filter_append, List.map_append]
  rfl

theorem mem_of_mem_valuesOf {pairs : List (α × β)} (h : value ∈ valuesOf key pairs) :
    (key, value) ∈ pairs := by
  obtain ⟨pair, hpair, rfl⟩ := List.mem_map.mp h
  obtain ⟨hmem, hkey⟩ := List.mem_filter.mp hpair
  rwa [← of_decide_eq_true hkey]

theorem valuesOf_ne_nil {pairs : List (α × β)} (hkey : key ∈ pairs.map Prod.fst) :
    valuesOf key pairs ≠ [] := by
  obtain ⟨pair, hpair, rfl⟩ := List.mem_map.mp hkey
  exact List.ne_nil_of_mem (List.mem_map_of_mem (List.mem_filter.mpr ⟨hpair, decide_eq_true rfl⟩))

theorem get?_push (key other : α) (value : β) (groups : Entries α (List β)) :
    get? other (push key value groups) =
      if key = other then some ((get? key groups).getD [] ++ [value]) else get? other groups := by
  split
  · next hkey =>
    subst hkey
    have hfind : get? key (push key value groups) =
        some ((find? (· = key) groups).elim [value] (· ++ [value])) :=
      find?_upsert_self (by simp) groups
    rw [hfind, get?]
    cases find? (· = key) groups <;> rfl
  · next hkey =>
    apply find?_upsert_of_not
    · simpa using hkey
    · simpa using hkey

theorem getD_get?_group (key : α) (pairs : List (α × β)) :
    (get? key (group pairs)).getD [] = valuesOf key pairs := by
  induction pairs using List.reverseRecOn with
  | nil => rfl
  | append_singleton pairs pair ih =>
    rw [group_concat, get?_push, valuesOf_concat, ← ih]
    by_cases hkey : pair.1 = key <;> simp [hkey]

omit [DecidableEq α] in
theorem eraseDups_filter [BEq α] [LawfulBEq α] (p : α → Bool) (keys : List α) :
    (keys.filter p).eraseDups = keys.eraseDups.filter p := by
  induction keys using List.reverseRecOn with
  | nil => rfl
  | append_singleton keys key ih =>
    rw [List.filter_append, List.eraseDups_append, List.eraseDups_append, List.filter_append, ih]
    congr 1
    by_cases hp : p key <;> by_cases hold : key ∈ keys <;>
      simp [List.removeAll, List.eraseDups_cons, hp, hold]

theorem keys_group (pairs : List (α × β)) : keys (group pairs) = (pairs.map Prod.fst).eraseDups := by
  rw [group_eq, keys, List.map_map]
  exact List.map_id _

/-- Grouping more pairs extends the groups by theirs. -/
theorem group_append (pairs more : List (α × β)) :
    group (pairs ++ more) = extend (group pairs) (group more) := by
  have hold : (group pairs).map (fun entry => (entry.1, entry.2 ++ valuesOf entry.1 more)) =
      (pairs.map Prod.fst).eraseDups.map fun key => (key, valuesOf key (pairs ++ more)) := by
    rw [group_eq, List.map_map]
    refine List.map_congr_left fun key _ => ?_
    rw [Function.comp_apply, valuesOf_append]
  have hnew : (group more).filter (fun entry => entry.1 ∉ keys (group pairs)) =
      ((more.map Prod.fst).removeAll (pairs.map Prod.fst)).eraseDups.map
        fun key => (key, valuesOf key (pairs ++ more)) := by
    rw [group_eq more, List.filter_map, List.removeAll, eraseDups_filter]
    have hkeys : (more.map Prod.fst).eraseDups.filter
          ((fun entry => decide (entry.1 ∉ keys (group pairs))) ∘ fun key => (key, valuesOf key more)) =
        (more.map Prod.fst).eraseDups.filter fun key => !(pairs.map Prod.fst).elem key := by
      refine List.filter_congr fun key _ => ?_
      simp [keys_group]
    rw [hkeys]
    refine List.map_congr_left fun key hkey => ?_
    -- a key that is new in `more` has no values before
    have hnotMem : key ∉ pairs.map Prod.fst := by simpa using (List.mem_filter.mp hkey).2
    rw [valuesOf_append, valuesOf_of_notMem hnotMem, List.nil_append]
  simp only [extend, getD_get?_group]
  rw [hold, hnew, group_eq, List.map_append, List.eraseDups_append, List.map_append]

end HttpEcho.Entries
