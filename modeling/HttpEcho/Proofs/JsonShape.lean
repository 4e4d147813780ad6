import HttpEcho.Json.Value
import Mathlib.Data.List.Basic

/-!
# Values that text keeps exactly

Text keeps every value but a float, as long as its whole numbers are within the range, no object has a
key twice and the nesting is within the limit.
-/

namespace HttpEcho.Json

mutual

def depth : Json → Nat
  | .arr items => depthItems items + 1
  | .obj members => depthMembers members + 1
  | _ => 0

def depthItems : List Json → Nat
  | [] => 0
  | v :: vs => max (depth v) (depthItems vs)

def depthMembers : List (Text × Json) → Nat
  | [] => 0
  | (_, v) :: ms => max (depth v) (depthMembers ms)

end

mutual

def hasFloat : Json → Bool
  | .float _ => true
  | .arr items => itemsHaveFloat items
  | .obj members => membersHaveFloat members
  | _ => false

def itemsHaveFloat : List Json → Bool
  | [] => false
  | v :: vs => hasFloat v || itemsHaveFloat vs

def membersHaveFloat : List (Text × Json) → Bool
  | [] => false
  | (_, v) :: ms => hasFloat v || membersHaveFloat ms

end

/-- What the reader gives: whole numbers within the range and no key twice. -/
inductive WellFormed : Json → Prop
  | null : WellFormed .null
  | bool (b : Bool) : WellFormed (.bool b)
  | int {n : Int} (hn : IntInRange n) : WellFormed (.int n)
  | float (x : Float) : WellFormed (.float x)
  | str (s : Text) : WellFormed (.str s)
  | arr {items : List Json} (hitems : ∀ v ∈ items, WellFormed v) : WellFormed (.arr items)
  | obj {members : List (Text × Json)} (hkeys : (Entries.keys members).Nodup)
      (hmembers : ∀ m ∈ members, WellFormed m.2) : WellFormed (.obj members)

/-- What text keeps exactly, nested at most `d` deep. -/
inductive Exact : Nat → Json → Prop
  | null (d : Nat) : Exact d .null
  | bool (d : Nat) (b : Bool) : Exact d (.bool b)
  | int (d : Nat) {n : Int} (hn : IntInRange n) : Exact d (.int n)
  | str (d : Nat) (s : Text) : Exact d (.str s)
  | arr {d : Nat} {items : List Json} (hitems : ∀ v ∈ items, Exact d v) : Exact (d + 1) (.arr items)
  | obj {d : Nat} {members : List (Text × Json)} (hkeys : (Entries.keys members).Nodup)
      (hmembers : ∀ m ∈ members, Exact d m.2) : Exact (d + 1) (.obj members)

variable {v : Json} {items : List Json} {members : List (Text × Json)} {m : Text × Json} {d : Nat}

theorem depth_le_depthItems (hv : v ∈ items) : depth v ≤ depthItems items := by
  induction items with
  | nil => cases hv
  | cons first rest ih =>
    rw [depthItems]
    rcases List.mem_cons.mp hv with rfl | hv
    · exact Nat.le_max_left _ _
    · exact Nat.le_trans (ih hv) (Nat.le_max_right _ _)

theorem depth_le_depthMembers (hm : m ∈ members) : depth m.2 ≤ depthMembers members := by
  induction members with
  | nil => cases hm
  | cons first rest ih =>
    rw [depthMembers]
    rcases List.mem_cons.mp hm with rfl | hm
    · exact Nat.le_max_left _ _
    · exact Nat.le_trans (ih hm) (Nat.le_max_right _ _)

theorem hasFloat_of_mem_items (hv : v ∈ items) (h : itemsHaveFloat items = false) :
    hasFloat v = false := by
  induction items with
  | nil => cases hv
  | cons first rest ih =>
    rw [itemsHaveFloat, Bool.or_eq_false_iff] at h
    rcases List.mem_cons.mp hv with rfl | hv
    · exact h.1
    · exact ih hv h.2

theorem hasFloat_of_mem_members (hm : m ∈ members) (h : membersHaveFloat members = false) :
    hasFloat m.2 = false := by
  induction members with
  | nil => cases hm
  | cons first rest ih =>
    rw [membersHaveFloat, Bool.or_eq_false_iff] at h
    rcases List.mem_cons.mp hm with rfl | hm
    · exact h.1
    · exact ih hm h.2

theorem WellFormed.exact (h : WellFormed v) (hfloat : v.hasFloat = false) (hdepth : v.depth ≤ d) :
    Exact d v := by
  induction h generalizing d with
  | null => exact .null d
  | bool b => exact .bool d b
  | int hn => exact .int d hn
  | float x => cases hfloat
  | str s => exact .str d s
  | arr hitems ih =>
    rw [hasFloat] at hfloat
    rw [depth] at hdepth
    obtain ⟨d, rfl⟩ := Nat.exists_eq_add_one_of_ne_zero (by omega : d ≠ 0)
    apply Exact.arr
    intro v hv
    have hle := depth_le_depthItems hv
    exact ih v hv (hasFloat_of_mem_items hv hfloat) (by omega)
  | obj hkeys hmembers ih =>
    rw [hasFloat] at hfloat
    rw [depth] at hdepth
    obtain ⟨d, rfl⟩ := Nat.exists_eq_add_one_of_ne_zero (by omega : d ≠ 0)
    apply Exact.obj hkeys
    intro m hm
    have hle := depth_le_depthMembers hm
    exact ih m hm (hasFloat_of_mem_members hm hfloat) (by omega)

end HttpEcho.Json
