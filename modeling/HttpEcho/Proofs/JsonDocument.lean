import HttpEcho.Json.Reader
import HttpEcho.Proofs.JsonLexemes

/-!
# Reading documents

The machine reads a text if and only if the text is a document with no more levels than the limit, and then
as the value that the document is for. A document takes the machine from waiting for a value to having it,
under any containers that leave room for its levels. The other way round, what is left of a text that is read
is what the open containers still wait for.
-/

namespace HttpEcho.Json

namespace State

theorem run?_cons (s : State) (l : Lexeme) (input : List Lexeme) :
    run? s (l :: input) = (step? s l).bind fun next => run? next input := by
  rw [run?, List.foldlM_cons]
  rfl

/-- What the machine reads from a text if it begins in some state. -/
def reads? (s : State) (t : Text) : Option Json :=
  (lexemes? t).bind fun input => (run? s input).bind result?

variable {s next : State} {t rest : Text} {outer : List Frame} {d : Nat}

theorem reads?_of_lexemes? {l : Lexeme} (h : lexemes? t = (lexemes? rest).map (l :: ·)) :
    s.reads? t = (step? s l).bind fun next => next.reads? rest := by
  unfold reads?
  rw [h]
  cases lexemes? rest with
  | none => cases step? s l <;> rfl
  | some input =>
    rw [Option.map_some, Option.bind_some, run?_cons]
    cases step? s l <;> rfl

theorem reads?_step {l : Lexeme} (h : lexemes? t = (lexemes? rest).map (l :: ·))
    (hstep : step? s l = some next) : s.reads? t = next.reads? rest := by
  rw [reads?_of_lexemes? h, hstep, Option.bind_some]

theorem reads?_spacing {space : Text} (hspace : IsSpacing space) (s : State) (rest : Text) :
    s.reads? (space ++ rest) = s.reads? rest := by
  rw [reads?, reads?, lexemes?_spacing hspace]

/-! ### Documents are read -/

/-- The machine reads the value from the text under containers that are `d` short of the limit. -/
def IsRead (d : Nat) (t : Text) (v : Json) : Prop :=
  ∀ outer rest, outer.length + d ≤ maxDepth → Delimited rest →
    (value outer).reads? (t ++ rest) = (after v outer).reads? rest

theorem enter?_of_room (hdepth : outer.length + (d + 1) ≤ maxDepth) (s : State) :
    enter? outer s = some s := by
  rw [enter?, if_pos (by omega)]

theorem lexemes?_string {raw s : Text} (h : WrittenString raw s) (rest : Text) :
    lexemes? ('"' :: raw ++ ['"'] ++ rest) = (lexemes? rest).map (.quoted raw :: ·) := by
  rw [List.append_assoc, List.cons_append]
  exact lexemes?_quoted (h.quotedPart?_append rest)

/-- No document begins with the end of an array. -/
theorem exists_firstLexeme {v : Json} (h : IsDocument d t v) {rest : Text} (hrest : Delimited rest) :
    ∃ l more, lexemes? (t ++ rest) = (lexemes? more).map (l :: ·) ∧ l ≠ .mark ']' := by
  induction h generalizing rest with
  | word depth h => exact ⟨_, _, h.lexemes?_append hrest, by simp⟩
  | string depth h => exact ⟨_, _, lexemes?_string h rest, by simp⟩
  | emptyArray depth hspace => exact ⟨_, _, lexemes?_mark (c := '[') rfl _, by decide⟩
  | array hfirst hmore => exact ⟨_, _, lexemes?_mark (c := '[') rfl _, by decide⟩
  | emptyObject depth hspace => exact ⟨_, _, lexemes?_mark (c := '\x7b') rfl _, by decide⟩
  | object hkey hfirst hkeys hmore => exact ⟨_, _, lexemes?_mark (c := '\x7b') rfl _, by decide⟩
  | spaced hbefore h hafter ih =>
    obtain ⟨l, more, hl, hne⟩ := ih (delimited_spacing_append hafter hrest)
    refine ⟨l, more, ?_, hne⟩
    rw [List.append_assoc, List.append_assoc, lexemes?_spacing hbefore, hl]

theorem reads?_firstItem {v : Json} (h : IsDocument d t v) (hrest : Delimited rest) :
    (firstItem outer).reads? (t ++ rest) = (value (.items [] :: outer)).reads? (t ++ rest) := by
  obtain ⟨l, more, hl, hne⟩ := exists_firstLexeme h hrest
  rw [reads?_of_lexemes? hl, reads?_of_lexemes? hl, step?, step?, if_neg hne]

theorem delimited_items (more : List (Text × Json)) (rest : Text) :
    Delimited (more.flatMap (fun item => ',' :: item.1) ++ ']' :: rest) := by
  cases more with
  | nil => exact delimited_cons (by decide) rest
  | cons item more => exact delimited_cons (by decide) _

theorem delimited_members (more : List Member) (rest : Text) :
    Delimited (more.flatMap (fun m => ',' :: m.text) ++ '\x7d' :: rest) := by
  cases more with
  | nil => exact delimited_cons (by decide) rest
  | cons m more => exact delimited_cons (by decide) _

theorem reads?_items {more : List (Text × Json)} (hmore : ∀ item ∈ more, IsRead d item.1 item.2)
    (v : Json) (done : List Json) (hdepth : outer.length + 1 + d ≤ maxDepth) (rest : Text) :
    (after v (.items done :: outer)).reads?
        (more.flatMap (fun item => ',' :: item.1) ++ ']' :: rest) =
      (after (.arr (done.reverse ++ v :: more.map Prod.snd)) outer).reads? rest := by
  induction more generalizing v done with
  | nil =>
    have hclose : step? (after v (.items done :: outer)) (.mark ']') =
        some (after (.arr (v :: done).reverse) outer) := rfl
    rw [List.flatMap_nil, List.nil_append, reads?_step (lexemes?_mark rfl _) hclose, List.reverse_cons,
      List.map_nil]
  | cons item more ih =>
    rw [List.forall_mem_cons] at hmore
    have hcomma : step? (after v (.items done :: outer)) (.mark ',') =
        some (value (.items (v :: done) :: outer)) := rfl
    rw [List.flatMap_cons, List.append_assoc, List.cons_append,
      reads?_step (lexemes?_mark rfl _) hcomma,
      hmore.1 (.items (v :: done) :: outer) _ hdepth (delimited_items more rest), ih hmore.2,
      List.reverse_cons, List.append_assoc, List.singleton_append, List.map_cons]

theorem reads?_member {m : Member} (hkey : WrittenKey m.keyText m.key)
    (hvalue : IsRead d m.valueText m.value) (done : List (Text × Json))
    (hdepth : outer.length + 1 + d ≤ maxDepth) (hrest : Delimited rest) :
    (key done outer).reads? (m.text ++ rest) =
      (after m.value (.members done m.key :: outer)).reads? rest := by
  obtain ⟨before, raw, space, hkeyText, hbefore, hraw, hspace⟩ := hkey
  have hquoted : step? (key done outer) (.quoted raw) = some (colon done m.key outer) := by
    rw [step?, if_neg (by simp), readKey?, unescape?_eq_some_iff.mpr hraw, Option.map_some]
  have hcolon : step? (colon done m.key outer) (.mark ':') =
      some (value (.members done m.key :: outer)) := rfl
  have htext : m.text ++ rest =
      before ++ ('"' :: raw ++ ['"'] ++ (space ++ ':' :: (m.valueText ++ rest))) := by
    rw [Member.text, hkeyText]
    simp
  rw [htext, reads?_spacing hbefore, reads?_step (lexemes?_string hraw _) hquoted, reads?_spacing hspace,
    reads?_step (lexemes?_mark rfl _) hcolon, hvalue (.members done m.key :: outer) rest hdepth hrest]

theorem reads?_members {more : List Member} (hkeys : ∀ m ∈ more, WrittenKey m.keyText m.key)
    (hmore : ∀ m ∈ more, IsRead d m.valueText m.value) (k : Text) (v : Json)
    (done : List (Text × Json)) (hdepth : outer.length + 1 + d ≤ maxDepth) (rest : Text) :
    (after v (.members done k :: outer)).reads?
        (more.flatMap (fun m => ',' :: m.text) ++ '\x7d' :: rest) =
      (after (.obj (Entries.ofList (done.reverse ++ (k, v) :: more.map Member.entry))) outer).reads?
        rest := by
  induction more generalizing k v done with
  | nil =>
    have hclose : step? (after v (.members done k :: outer)) (.mark '\x7d') =
        some (after (closeObject ((k, v) :: done)) outer) := rfl
    rw [List.flatMap_nil, List.nil_append, reads?_step (lexemes?_mark rfl _) hclose, closeObject,
      List.reverse_cons, List.map_nil]
  | cons m more ih =>
    rw [List.forall_mem_cons] at hkeys hmore
    have hcomma : step? (after v (.members done k :: outer)) (.mark ',') =
        some (key ((k, v) :: done) outer) := rfl
    rw [List.flatMap_cons, List.append_assoc, List.cons_append,
      reads?_step (lexemes?_mark rfl _) hcomma,
      reads?_member hkeys.1 hmore.1 _ hdepth (delimited_members more rest), ih hkeys.2 hmore.2,
      List.reverse_cons, List.append_assoc, List.singleton_append, List.map_cons, Member.entry]

theorem isRead_of_isDocument {v : Json} (h : IsDocument d t v) : IsRead d t v := by
  induction h with
  | @word depth t v h =>
    intro outer rest hdepth hrest
    have hstep : step? (value outer) (.word t) = some (after v outer) := by
      rw [step?, readValue?, ofWord?_eq_some_iff.mpr h, Option.map_some]
    exact reads?_step (h.lexemes?_append hrest) hstep
  | @string depth raw s h =>
    intro outer rest hdepth hrest
    have hstep : step? (value outer) (.quoted raw) = some (after (.str s) outer) := by
      rw [step?, readValue?, unescape?_eq_some_iff.mpr h, Option.map_some]
    exact reads?_step (lexemes?_string h rest) hstep
  | @emptyArray depth space hspace =>
    intro outer rest hdepth hrest
    have hopen : step? (value outer) (.mark '[') = some (firstItem outer) := enter?_of_room hdepth _
    have hclose : step? (firstItem outer) (.mark ']') = some (after (.arr []) outer) := rfl
    rw [List.append_assoc, List.cons_append, reads?_step (lexemes?_mark rfl _) hopen,
      reads?_spacing hspace, List.singleton_append, reads?_step (lexemes?_mark rfl _) hclose]
  | @array depth first more hfirst hmore ihfirst ihmore =>
    intro outer rest hdepth hrest
    have hopen : step? (value outer) (.mark '[') = some (firstItem outer) := enter?_of_room hdepth _
    have hroom : outer.length + 1 + depth ≤ maxDepth := by omega
    have hafter := delimited_items more rest
    simp only [List.cons_append, List.append_assoc, List.nil_append]
    rw [reads?_step (lexemes?_mark rfl _) hopen, reads?_firstItem hfirst hafter,
      ihfirst (.items [] :: outer) _ hroom hafter, reads?_items ihmore _ _ hroom]
    rfl
  | @emptyObject depth space hspace =>
    intro outer rest hdepth hrest
    have hopen : step? (value outer) (.mark '\x7b') = some (key [] outer) := enter?_of_room hdepth _
    have hclose : step? (key [] outer) (.mark '\x7d') = some (after (.obj []) outer) := rfl
    rw [List.append_assoc, List.cons_append, reads?_step (lexemes?_mark rfl _) hopen,
      reads?_spacing hspace, List.singleton_append, reads?_step (lexemes?_mark rfl _) hclose]
  | @object depth first more hkey hfirst hkeys hmore ihfirst ihmore =>
    intro outer rest hdepth hrest
    have hopen : step? (value outer) (.mark '\x7b') = some (key [] outer) := enter?_of_room hdepth _
    have hroom : outer.length + 1 + depth ≤ maxDepth := by omega
    simp only [List.cons_append, List.append_assoc, List.nil_append]
    rw [reads?_step (lexemes?_mark rfl _) hopen,
      reads?_member hkey ihfirst [] hroom (delimited_members more rest),
      reads?_members hkeys ihmore _ _ _ hroom]
    rfl
  | spaced hbefore h hafter ih =>
    intro outer rest hdepth hrest
    rw [List.append_assoc, List.append_assoc, reads?_spacing hbefore,
      ih outer _ hdepth (delimited_spacing_append hafter hrest), reads?_spacing hafter]

/-! ### What is read is a document -/

/-- After `w` the text closes all open containers, and their value is `v`. -/
def Closes (v : Json) : List Frame → Json → Text → Prop
  | [], w, t => w = v ∧ IsSpacing t
  | .items done :: outer, w, t =>
    ∃ (space : Text) (more : List (Text × Json)) (rest : Text),
      t = space ++ (more.flatMap (fun item => ',' :: item.1) ++ ']' :: rest) ∧ IsSpacing space ∧
        (∀ item ∈ more, IsDocument (maxDepth - (outer.length + 1)) item.1 item.2) ∧
        Closes v outer (.arr (done.reverse ++ w :: more.map Prod.snd)) rest
  | .members done k :: outer, w, t =>
    ∃ (space : Text) (more : List Member) (rest : Text),
      t = space ++ (more.flatMap (fun m => ',' :: m.text) ++ '\x7d' :: rest) ∧ IsSpacing space ∧
        (∀ m ∈ more, WrittenKey m.keyText m.key) ∧
        (∀ m ∈ more, IsDocument (maxDepth - (outer.length + 1)) m.valueText m.value) ∧
        Closes v outer (.obj (Entries.ofList (done.reverse ++ (k, w) :: more.map Member.entry))) rest

/-- The text has a value in front and then closes all open containers. -/
def AcceptsValue (v : Json) (outer : List Frame) (t : Text) : Prop :=
  ∃ part rest w, t = part ++ rest ∧ IsDocument (maxDepth - outer.length) part w ∧ Closes v outer w rest

/-- What the machine waits for in a state, if `v` is to be read in the end. -/
def Accepts (v : Json) : State → Text → Prop
  | value outer, t => AcceptsValue v outer t
  | firstItem outer, t =>
    (∃ space rest, t = space ++ ']' :: rest ∧ IsSpacing space ∧ Closes v outer (.arr []) rest) ∨
      AcceptsValue v (.items [] :: outer) t
  | key done outer, t =>
    (done = [] ∧ ∃ space rest, t = space ++ '\x7d' :: rest ∧ IsSpacing space ∧
      Closes v outer (.obj []) rest) ∨
      ∃ keyText k rest, t = keyText ++ ':' :: rest ∧ WrittenKey keyText k ∧
        AcceptsValue v (.members done k :: outer) rest
  | colon done k outer, t =>
    ∃ space rest, t = space ++ ':' :: rest ∧ IsSpacing space ∧
      AcceptsValue v (.members done k :: outer) rest
  | after w outer, t => Closes v outer w t

variable {v : Json}

theorem closes_space {c : Char} (hc : c ∈ [' ', '\t', '\n', '\r']) {w : Json} (h : Closes v outer w t) :
    Closes v outer w (c :: t) := by
  match outer, h with
  | [], ⟨hw, ht⟩ => exact ⟨hw, isSpacing_cons hc ht⟩
  | .items done :: outer, ⟨space, more, rest, ht, hspace, hmore, hcloses⟩ =>
    exact ⟨c :: space, more, rest, by rw [ht]; rfl, isSpacing_cons hc hspace, hmore, hcloses⟩
  | .members done k :: outer, ⟨space, more, rest, ht, hspace, hkeys, hmore, hcloses⟩ =>
    exact ⟨c :: space, more, rest, by rw [ht]; rfl, isSpacing_cons hc hspace, hkeys, hmore, hcloses⟩

theorem acceptsValue_space {c : Char} (hc : c ∈ [' ', '\t', '\n', '\r'])
    (h : AcceptsValue v outer t) : AcceptsValue v outer (c :: t) := by
  obtain ⟨part, rest, w, rfl, hpart, hcloses⟩ := h
  have hspace := isSpacing_cons hc isSpacing_nil
  exact ⟨c :: part, rest, w, rfl, hpart.prepend_spacing hspace, hcloses⟩

/-- White space may be in front of whatever the machine waits for. -/
theorem accepts_space {c : Char} (hc : c ∈ [' ', '\t', '\n', '\r']) (h : Accepts v s t) :
    Accepts v s (c :: t) := by
  match s, h with
  | value outer, h => exact acceptsValue_space hc h
  | firstItem outer, .inl ⟨space, rest, ht, hspace, hcloses⟩ =>
    exact Or.inl ⟨c :: space, rest, by rw [ht]; rfl, isSpacing_cons hc hspace, hcloses⟩
  | firstItem outer, .inr h => exact Or.inr (acceptsValue_space hc h)
  | key done outer, .inl ⟨hdone, space, rest, ht, hspace, hcloses⟩ =>
    exact Or.inl ⟨hdone, c :: space, rest, by rw [ht]; rfl, isSpacing_cons hc hspace, hcloses⟩
  | key done outer, .inr ⟨keyText, k, rest, ht, hkey, hvalue⟩ =>
    obtain ⟨before, raw, space, hkeyText, hbefore, hraw, hspace⟩ := hkey
    refine Or.inr ⟨c :: keyText, k, rest, by rw [ht]; rfl, ?_, hvalue⟩
    exact ⟨c :: before, raw, space, by rw [hkeyText]; rfl, isSpacing_cons hc hbefore, hraw, hspace⟩
  | colon done k outer, ⟨space, rest, ht, hspace, hvalue⟩ =>
    exact ⟨c :: space, rest, by rw [ht]; rfl, isSpacing_cons hc hspace, hvalue⟩
  | after w outer, h => exact closes_space hc h

end State

def Lexeme.text : Lexeme → Text
  | mark c => [c]
  | quoted raw => '"' :: raw ++ ['"']
  | word t => t

namespace State

variable {s next : State} {t rest : Text} {outer : List Frame} {v : Json}

theorem enter?_eq_some (h : enter? outer s = some next) :
    next = s ∧ maxDepth - outer.length = maxDepth - (outer.length + 1) + 1 := by
  unfold enter? at h
  split at h
  · exact ⟨(Option.some.inj h).symm, by omega⟩
  · cases h

/-- An array is complete where its first item or its end comes after its beginning. -/
theorem acceptsValue_array (hdepth : maxDepth - outer.length = maxDepth - (outer.length + 1) + 1)
    (h : Accepts v (firstItem outer) rest) : AcceptsValue v outer ('[' :: rest) := by
  rw [AcceptsValue, hdepth]
  rcases h with ⟨space, rest, rfl, hspace, hcloses⟩ |
    ⟨part, -, w, rfl, hpart, space, more, rest, rfl, hspace, hmore, hcloses⟩
  · exact ⟨'[' :: space ++ [']'], rest, _, by simp, .emptyArray _ hspace, hcloses⟩
  · have hfirst : IsDocument (maxDepth - (outer.length + 1)) (part ++ space, w).1 (part ++ space, w).2 :=
      hpart.append_spacing hspace
    exact ⟨_, rest, _, by simp, .array hfirst hmore, hcloses⟩

theorem acceptsValue_object (hdepth : maxDepth - outer.length = maxDepth - (outer.length + 1) + 1)
    (h : Accepts v (key [] outer) rest) : AcceptsValue v outer ('\x7b' :: rest) := by
  rw [AcceptsValue, hdepth]
  rcases h with ⟨-, space, rest, rfl, hspace, hcloses⟩ |
    ⟨keyText, k, -, rfl, hkey, part, -, w, rfl, hpart, space, more, rest, rfl, hspace, hkeys, hmore, hcloses⟩
  · exact ⟨'\x7b' :: space ++ ['\x7d'], rest, _, by simp, .emptyObject _ hspace, hcloses⟩
  · let first : Member := ⟨keyText, k, part ++ space, w⟩
    have hfirst : IsDocument (maxDepth - (outer.length + 1)) first.valueText first.value :=
      hpart.append_spacing hspace
    have hfirstKey : WrittenKey first.keyText first.key := hkey
    exact ⟨_, rest, _, by simp [first, Member.text], .object hfirstKey hfirst hkeys hmore, hcloses⟩

theorem acceptsValue_of_readValue? {l : Lexeme} (h : readValue? outer l = some next)
    (hnext : Accepts v next rest) : AcceptsValue v outer (l.text ++ rest) := by
  unfold readValue? at h
  split at h
  · next t =>
    obtain ⟨w, hw, rfl⟩ := Option.map_eq_some_iff.mp h
    exact ⟨t, rest, w, rfl, .word _ (ofWord?_eq_some_iff.mp hw), hnext⟩
  · next raw =>
    obtain ⟨s, hs, rfl⟩ := Option.map_eq_some_iff.mp h
    exact ⟨_, rest, _, rfl, .string _ (unescape?_eq_some_iff.mp hs), hnext⟩
  · obtain ⟨rfl, hdepth⟩ := enter?_eq_some h
    exact acceptsValue_array hdepth hnext
  · obtain ⟨rfl, hdepth⟩ := enter?_eq_some h
    exact acceptsValue_object hdepth hnext
  · cases h

theorem accepts_key {l : Lexeme} {done : List (Text × Json)}
    (h : step? (key done outer) l = some next) (hnext : Accepts v next rest) :
    Accepts v (key done outer) (l.text ++ rest) := by
  rw [step?] at h
  split at h
  · next hclose =>
    obtain ⟨rfl, hdone⟩ := hclose
    obtain rfl := Option.some.inj h
    exact Or.inl ⟨List.isEmpty_iff.mp hdone, [], rest, rfl, isSpacing_nil, hnext⟩
  · unfold readKey? at h
    split at h
    · next raw _ =>
      obtain ⟨k, hk, rfl⟩ := Option.map_eq_some_iff.mp h
      obtain ⟨space, rest, rfl, hspace, hvalue⟩ := hnext
      exact Or.inr ⟨'"' :: raw ++ '"' :: space, k, rest, by simp [Lexeme.text],
        ⟨[], raw, space, rfl, isSpacing_nil, unescape?_eq_some_iff.mp hk, hspace⟩, hvalue⟩
    · cases h

theorem closes_items {l : Lexeme} {w : Json} {done : List Json}
    (h : step? (after w (.items done :: outer)) l = some next) (hnext : Accepts v next rest) :
    Closes v (.items done :: outer) w (l.text ++ rest) := by
  rw [step?] at h
  split at h
  · next hcomma =>
    obtain rfl := Option.some.inj h
    obtain ⟨part, -, w', rfl, hpart, space, more, rest, rfl, hspace, hmore, hcloses⟩ := hnext
    refine ⟨[], (part ++ space, w') :: more, rest, ?_, isSpacing_nil, ?_, ?_⟩
    · rw [hcomma]
      simp [Lexeme.text]
    · exact List.forall_mem_cons.mpr ⟨hpart.append_spacing hspace, hmore⟩
    · rwa [List.reverse_cons, List.append_assoc] at hcloses
  split at h
  · next hclose =>
    obtain rfl := Option.some.inj h
    refine ⟨[], [], rest, by rw [hclose]; rfl, isSpacing_nil, List.forall_mem_nil _, ?_⟩
    rwa [List.reverse_cons] at hnext
  · cases h

theorem closes_members {l : Lexeme} {w : Json} {done : List (Text × Json)} {k : Text}
    (h : step? (after w (.members done k :: outer)) l = some next) (hnext : Accepts v next rest) :
    Closes v (.members done k :: outer) w (l.text ++ rest) := by
  rw [step?] at h
  split at h
  · next hcomma =>
    obtain rfl := Option.some.inj h
    rcases hnext with ⟨hdone, -⟩ |
      ⟨keyText, k', -, rfl, hkey, part, -, w', rfl, hpart, space, more, rest, rfl, hspace, hkeys, hmore, hcloses⟩
    · cases hdone
    refine ⟨[], ⟨keyText, k', part ++ space, w'⟩ :: more, rest, ?_, isSpacing_nil, ?_, ?_, ?_⟩
    · rw [hcomma]
      simp [Lexeme.text, Member.text]
    · exact List.forall_mem_cons.mpr ⟨hkey, hkeys⟩
    · exact List.forall_mem_cons.mpr ⟨hpart.append_spacing hspace, hmore⟩
    · rwa [List.reverse_cons, List.append_assoc] at hcloses
  split at h
  · next hclose =>
    obtain rfl := Option.some.inj h
    refine ⟨[], [], rest, by rw [hclose]; rfl, isSpacing_nil, List.forall_mem_nil _,
      List.forall_mem_nil _, ?_⟩
    rwa [closeObject, List.reverse_cons] at hnext
  · cases h

/-- A lexeme that is taken stands in front of what the machine waits for after it. -/
theorem accepts_of_step? {l : Lexeme} (h : step? s l = some next) (hnext : Accepts v next rest) :
    Accepts v s (l.text ++ rest) := by
  match s, h with
  | value outer, h => exact acceptsValue_of_readValue? h hnext
  | firstItem outer, h =>
    rw [step?] at h
    split at h
    · next hclose =>
      obtain rfl := Option.some.inj h
      exact Or.inl ⟨[], rest, by rw [hclose]; rfl, isSpacing_nil, hnext⟩
    · exact Or.inr (acceptsValue_of_readValue? h hnext)
  | key done outer, h => exact accepts_key h hnext
  | colon done k outer, h =>
    rw [step?] at h
    split at h
    · next hcolon =>
      obtain rfl := Option.some.inj h
      exact ⟨[], rest, by rw [hcolon]; rfl, isSpacing_nil, hnext⟩
    · cases h
  | after w (.items done :: outer), h => exact closes_items h hnext
  | after w (.members done k :: outer), h => exact closes_members h hnext
  | after w [], h => cases h

theorem accepts_of_lexemes? {l : Lexeme} (hl : lexemes? t = (lexemes? rest).map (l :: ·))
    (ht : t = l.text ++ rest) (hrest : ∀ {s : State}, s.reads? rest = some v → Accepts v s rest)
    (h : s.reads? t = some v) : Accepts v s t := by
  rw [reads?_of_lexemes? hl] at h
  obtain ⟨next, hstep, hnext⟩ := Option.bind_eq_some_iff.mp h
  rw [ht]
  exact accepts_of_step? hstep (hrest hnext)

theorem accepts_of_reads? (h : s.reads? t = some v) : Accepts v s t := by
  induction t using lexemes?.induct generalizing s with
  | case1 =>
    have hend : result? s = some v := by
      rw [reads?, lexemes?] at h
      exact h
    unfold result? at hend
    split at hend
    · exact ⟨Option.some.inj hend, isSpacing_nil⟩
    · cases hend
  | case2 c rest hspace ih =>
    refine accepts_space (isSpace_iff.mp hspace) (ih ?_)
    rwa [reads?, lexemes?_space hspace] at h
  | case3 c rest hspace hmark ih => exact accepts_of_lexemes? (lexemes?_mark hmark rest) rfl ih h
  | case4 rest hnone hspace hmark =>
    rw [reads?, lexemes?_of_quotedPart?_eq_none hnone] at h
    cases h
  | case5 rest raw after hpart hspace hmark ih =>
    refine accepts_of_lexemes? (lexemes?_quoted hpart) ?_ ih h
    rw [eq_append_of_quotedPart? hpart, Lexeme.text, List.append_assoc]
    rfl
  | case6 c rest hspace hmark hquote ih =>
    refine accepts_of_lexemes? (l := .word (c :: rest.takeWhile isWordChar)) ?_ ?_ ih h
    · rw [lexemes?, if_neg hspace, if_neg hmark, if_neg hquote]
    · rw [Lexeme.text, List.cons_append, List.takeWhile_append_dropWhile]

end State

/-- The reader takes documents as deep as the limit and nothing else. -/
theorem ofText?_eq_some_iff {t : Text} {v : Json} : ofText? t = some v ↔ IsDocument maxDepth t v := by
  have hreads : ofText? t = (State.value []).reads? t := rfl
  rw [hreads]
  constructor
  · intro h
    obtain ⟨part, rest, w, rfl, hpart, rfl, hrest⟩ := State.accepts_of_reads? h
    exact hpart.append_spacing hrest
  · intro h
    have hread := State.isRead_of_isDocument h [] [] (Nat.le_of_eq (Nat.zero_add _)) delimited_nil
    rw [List.append_nil] at hread
    rw [hread, State.reads?, lexemes?]
    rfl

end HttpEcho.Json
