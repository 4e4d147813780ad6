import HttpEcho.Text.Basic

/-!
# Request methods
-/

namespace HttpEcho

inductive Method
  | get
  | head
  | post
  | put
  | delete
  | options
  | patch
  | trace
  | connect
  deriving DecidableEq, Repr

namespace Method

def all : List Method := [get, head, post, put, delete, options, patch, trace, connect]

def text : Method → Text
  | get => "GET".toList
  | head => "HEAD".toList
  | post => "POST".toList
  | put => "PUT".toList
  | delete => "DELETE".toList
  | options => "OPTIONS".toList
  | patch => "PATCH".toList
  | trace => "TRACE".toList
  | connect => "CONNECT".toList

def ofText? (t : Text) : Option Method := all.find? fun m => m.text = t

theorem ofText?_text (m : Method) : ofText? m.text = some m := by cases m <;> decide

theorem ofText?_eq_some_iff {t : Text} {m : Method} : ofText? t = some m ↔ t = m.text := by
  refine ⟨fun h => ?_, fun h => h ▸ ofText?_text m⟩
  simpa [eq_comm] using List.find?_some h

theorem text_injective : Function.Injective text := fun m n h => by
  have hm := ofText?_text m
  rw [h, ofText?_text] at hm
  exact (Option.some.inj hm).symm

theorem ofText?_eq_none_iff {t : Text} : ofText? t = none ↔ t ∉ all.map text := by
  simp [ofText?, List.find?_eq_none]

end Method

inductive HttpVersion
  | http10
  | http11
  deriving DecidableEq, Repr

namespace HttpVersion

def text : HttpVersion → Text
  | http10 => "HTTP/1.0".toList
  | http11 => "HTTP/1.1".toList

def ofText? (t : Text) : Option HttpVersion := [http10, http11].find? fun v => v.text = t

theorem ofText?_text (v : HttpVersion) : ofText? v.text = some v := by cases v <;> decide

theorem ofText?_eq_some_iff {t : Text} {v : HttpVersion} : ofText? t = some v ↔ t = v.text := by
  refine ⟨fun h => ?_, fun h => h ▸ ofText?_text v⟩
  simpa [eq_comm] using List.find?_some h

theorem ofText?_eq_none_iff {t : Text} : ofText? t = none ↔ t ∉ [http10, http11].map text := by
  simp only [ofText?, List.find?_eq_none]
  simp [eq_comm]

end HttpVersion

end HttpEcho
