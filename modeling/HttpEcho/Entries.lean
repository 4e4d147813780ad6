/-!
# Entries in order of arrival

A map whose keys keep the order in which they first came: a later value for a key goes to the place
of the earlier one.
-/

namespace HttpEcho

abbrev Entries (α β : Type) := List (α × β)

namespace Entries

variable {α β : Type}

/-- Changes the value of the first key satisfying `same`, or puts `new` at the end. -/
def upsert (same : α → Bool) (change : β → β) (new : α × β) : Entries α β → Entries α β
  | [] => [new]
  | (key, value) :: rest =>
    if same key then (key, change value) :: rest else (key, value) :: upsert same change new rest

def find? (same : α → Bool) (entries : Entries α β) : Option β :=
  (List.find? (fun entry => same entry.1) entries).map Prod.snd

def keys (entries : Entries α β) : List α := entries.map Prod.fst

/-- `upsert` keeps every key, and adds the new one only if none of them is the same. -/
theorem keys_upsert (same : α → Bool) (change : β → β) (new : α × β) (entries : Entries α β) :
    keys (upsert same change new entries) =
      if (keys entries).any same then keys entries else keys entries ++ [new.1] := by
  induction entries with
  | nil => simp [upsert, keys]
  | cons entry rest ih =>
    by_cases h : same entry.1
    · simp [upsert, keys, h]
    · simp only [keys] at ih
      simp only [upsert, keys, h, Bool.false_eq_true, ↓reduceIte, List.map_cons, ih, List.any_cons,
        Bool.false_or]
      by_cases hany : (rest.map Prod.fst).any same <;> simp [hany]

variable [DecidableEq α]

def get? (key : α) (entries : Entries α β) : Option β := find? (· = key) entries

/-- The last value given for a key counts. -/
def insert (key : α) (value : β) (entries : Entries α β) : Entries α β :=
  upsert (· = key) (fun _ => value) (key, value) entries

def ofList (pairs : List (α × β)) : Entries α β :=
  pairs.foldl (fun entries pair => insert pair.1 pair.2 entries) []

def push (key : α) (value : β) (groups : Entries α (List β)) : Entries α (List β) :=
  upsert (· = key) (· ++ [value]) (key, [value]) groups

def group (pairs : List (α × β)) : Entries α (List β) :=
  pairs.foldl (fun groups pair => push pair.1 pair.2 groups) []

theorem keys_insert (key : α) (value : β) (entries : Entries α β) :
    keys (insert key value entries) =
      if key ∈ keys entries then keys entries else keys entries ++ [key] := by
  simp [insert, keys_upsert]

theorem nodup_keys_insert {entries : Entries α β} (h : (keys entries).Nodup) (key : α) (value : β) :
    (keys (insert key value entries)).Nodup := by
  rw [keys_insert]
  split
  next => exact h
  next hnew =>
    refine List.nodup_append.2 ⟨h, by simp, ?_⟩
    simp only [List.mem_singleton, forall_eq]
    exact fun k hk => ne_of_mem_of_not_mem hk hnew

end Entries

end HttpEcho
