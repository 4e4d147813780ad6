import HttpEcho.Proofs.Entries
import HttpEcho.Proofs.Utf8
import HttpEcho.Request.Target

/-!
# Query parameters in groups

Keys and values are decoded before the parameters are grouped, so keys that are written differently and
mean the same share one group. A value that is not empty does not become empty by decoding, however
ill-formed it is. No parameter with a value is lost, and adding a query behind another one adds its values.
-/

namespace HttpEcho

variable {t : Text} {query : Text}

/-- The parts of a query between `&` that have a `=` and something behind it, cut at the first `=`. -/
def valuedParts (query : Text) : List (Text × Text) :=
  ((query.splitOn '&').filterMap (Text.cut? '=')).filter fun part => part.2 ≠ []

/-- Keys and values as they are meant. -/
def decodeParts (parts : List (Text × Text)) : List (Text × Text) :=
  parts.map fun part => (Text.formDecode part.1, Text.formDecode part.2)

/-! ### Decoding -/

theorem percentBytes_ne_nil (h : t ≠ []) : Text.percentBytes t ≠ [] := by
  unfold Text.percentBytes
  split
  · exact absurd rfl h
  · split
    · exact List.cons_ne_nil _ _
    · exact List.append_ne_nil_of_left_ne_nil String.utf8EncodeChar_ne_nil _
  · exact List.append_ne_nil_of_left_ne_nil String.utf8EncodeChar_ne_nil _

theorem formDecode_ne_nil (h : t ≠ []) : Text.formDecode t ≠ [] := by
  apply Text.ofUtf8Lossy_ne_nil
  apply percentBytes_ne_nil
  simpa using h

/-! ### Parameters -/

theorem queryPairs_eq (query : Text) : queryPairs query = decodeParts (valuedParts query) := by
  rw [queryPairs, decodeParts, valuedParts, List.filter_filterMap, List.map_filterMap]
  congr 1
  funext segment
  cases Text.cut? '=' segment with
  | none => rfl
  | some part =>
    obtain ⟨key, value⟩ := part
    cases value <;> rfl

theorem queryPairs_append (query more : Text) :
    queryPairs (query ++ '&' :: more) = queryPairs query ++ queryPairs more := by
  rw [queryPairs, List.splitOn_append_cons_self, List.filterMap_append]
  rfl

theorem value_ne_nil_of_mem {pair : Text × Text} (h : pair ∈ decodeParts (valuedParts query)) :
    pair.2 ≠ [] := by
  obtain ⟨part, hpart, rfl⟩ := List.mem_map.mp h
  have hvalue := (List.mem_filter.mp hpart).2
  exact formDecode_ne_nil (of_decide_eq_true hvalue)

/-- The keys of a query are those of its parts with a value, each where it first comes, and the values of a
key are those given for it, in order. Every key has one, and no value is empty. Two queries with `&` between
them have the parameters of the first one, with those of the second one added key by key. -/
theorem readQuery_eq (query : Text) :
    readQuery query = ((decodeParts (valuedParts query)).map Prod.fst).eraseDups.map
        (fun key => (key, Entries.valuesOf key (decodeParts (valuedParts query)))) ∧
      (∀ group ∈ readQuery query, group.2 ≠ [] ∧ ∀ value ∈ group.2, value ≠ []) ∧
      ∀ more, readQuery (query ++ '&' :: more) = (readQuery query).extend (readQuery more) := by
  have hgroups : readQuery query = ((decodeParts (valuedParts query)).map Prod.fst).eraseDups.map
      (fun key => (key, Entries.valuesOf key (decodeParts (valuedParts query)))) := by
    rw [readQuery, queryPairs_eq, Entries.group_eq]
  refine ⟨hgroups, fun group hgroup => ?_, fun more => ?_⟩
  · rw [hgroups] at hgroup
    obtain ⟨key, hkey, rfl⟩ := List.mem_map.mp hgroup
    refine ⟨Entries.valuesOf_ne_nil (List.mem_eraseDups.mp hkey), fun value hvalue => ?_⟩
    exact value_ne_nil_of_mem (Entries.mem_of_mem_valuesOf hvalue)
  · rw [readQuery, queryPairs_append, Entries.group_append]
    rfl

/-- One key in three spellings, an ill-formed value, an empty key, and parts without a value. -/
theorem readQuery_eq_spellings :
    readQuery "a+b=1&flag&%61%20b=%FF&x=&=0&a%20b=c=d".toList =
      [("a b".toList, [['1'], ['\uFFFD'], "c=d".toList]), ([], [['0']])] := by
  rw [(readQuery_eq _).1]
  decide

end HttpEcho
