import HttpEcho.Request.Target
import Mathlib.Data.List.TakeWhile

/-!
# The parts of a target

A target is cut at its first `#` and at the first `?` in front of that. Only then an authority is looked
for, so none is found in a query or a fragment. It is dropped from a target in absolute form, which then
means the same as in origin form, and nothing is dropped from any other target.
-/

namespace HttpEcho

variable {scheme authority path suffix front : Text}

/-! ### Cutting a target -/

/-- What stands in front of the first `?` or `#`. -/
def pathPart (target : Text) : Text := target.takeWhile fun c => c ≠ '?' ∧ c ≠ '#'

/-- What stands between the first `?` and the first `#`. -/
def queryPart (target : Text) : Text := ((target.takeWhile (· ≠ '#')).dropWhile (· ≠ '?')).tail

theorem getD_cut? (sep : Char) (t : Text) :
    (Text.cut? sep t).getD (t, []) = (t.takeWhile (· ≠ sep), (t.dropWhile (· ≠ sep)).tail) := by
  induction t with
  | nil => rfl
  | cons c rest ih =>
    by_cases hc : c = sep
    · simp [Text.cut?, hc]
    · have hfront := congrArg Prod.fst ih
      have hback := congrArg Prod.snd ih
      dsimp only at hfront hback
      rw [Text.cut?, if_neg hc, List.takeWhile_cons_of_pos (by simpa using hc),
        List.dropWhile_cons_of_pos (by simpa using hc), ← hfront, ← hback]
      cases Text.cut? sep rest <;> rfl

theorem ofText_eq (target : Text) : Target.ofText target =
    ⟨Text.percentDecode (stripAuthority (pathPart target)), readQuery (queryPart target)⟩ := by
  have hpath : (target.takeWhile (· ≠ '#')).takeWhile (· ≠ '?') = pathPart target := by
    rw [List.takeWhile_takeWhile, pathPart]
    simp
  rw [Target.ofText, getD_cut?, hpath]
  rfl

theorem takeWhile_append_cons_of_neg {p : Char → Bool} {c : Char} (hc : ¬p c) (front rest : Text) :
    (front ++ c :: rest).takeWhile p = front.takeWhile p := by
  rw [List.takeWhile_append, List.takeWhile_cons_of_neg hc, List.append_nil]
  split
  · next hall => exact (List.takeWhile_prefix p).eq_of_length hall |>.symm
  · rfl

theorem pathPart_append (hfront : ∀ c ∈ front, c ≠ '?' ∧ c ≠ '#')
    (hsuffix : ∀ c, suffix.head? = some c → c = '?' ∨ c = '#') : pathPart (front ++ suffix) = front := by
  rw [pathPart, List.takeWhile_append_of_pos (by simpa using hfront)]
  cases suffix with
  | nil => exact List.append_nil front
  | cons c rest =>
    rw [List.takeWhile_cons_of_neg, List.append_nil]
    rcases hsuffix c rfl with rfl | rfl <;> decide

theorem queryPart_append (hfront : ∀ c ∈ front, c ≠ '?' ∧ c ≠ '#') (suffix : Text) :
    queryPart (front ++ suffix) = queryPart suffix := by
  rw [queryPart, List.takeWhile_append_of_pos (by simpa using fun c hc => (hfront c hc).2),
    List.dropWhile_append_of_pos (by simpa using fun c hc => (hfront c hc).1)]
  rfl

/-! ### Authorities -/

/-- The parts of a target in absolute form. -/
structure IsAbsolute (scheme authority path suffix : Text) : Prop where
  isScheme_scheme : isScheme scheme
  authority_plain : ∀ c ∈ authority, c ≠ '/' ∧ c ≠ '?' ∧ c ≠ '#'
  path_head : ∀ c, path.head? = some c → c = '/'
  path_plain : ∀ c ∈ path, c ≠ '?' ∧ c ≠ '#'
  suffix_head : ∀ c, suffix.head? = some c → c = '?' ∨ c = '#'

/-- The path in origin form. -/
def originPath (path : Text) : Text := if path = [] then ['/'] else path

/-- A path that begins with a slash, has no `://` or has something in front of the first one that is no
scheme. -/
def LacksAuthority (path : Text) : Prop :=
  path.head? = some '/' ∨ ¬"://".toList <:+: path ∨
    ∃ before after, path = before ++ "://".toList ++ after ∧
      (∀ front back, path = front ++ "://".toList ++ back → before.length ≤ front.length) ∧
        ¬isScheme before

theorem notMem_of_isScheme {c : Char} (h : isScheme scheme)
    (hc : ¬(c.isAlphanum ∨ c = '+' ∨ c = '-' ∨ c = '.')) : c ∉ scheme := by
  intro hmem
  cases scheme with
  | nil => cases hmem
  | cons first rest =>
    rw [isScheme, Bool.and_eq_true, List.all_eq_true] at h
    rcases List.mem_cons.mp hmem with rfl | hmem
    · exact hc (Or.inl (by rw [Char.isAlphanum, h.1, Bool.true_or]))
    · exact hc (by simpa [or_assoc] using h.2 c hmem)

theorem head?_originPath (h : ∀ c, path.head? = some c → c = '/') :
    (originPath path).head? = some '/' := by
  cases path with
  | nil => rfl
  | cons c rest => rw [h c rfl]; rfl

theorem stripAuthority_of_lacksAuthority (h : LacksAuthority path) : stripAuthority path = path := by
  unfold stripAuthority
  split
  · rfl
  next hhead =>
    rcases h with hslash | hnone | ⟨before, after, hpath, hfirst, hscheme⟩
    · exact absurd hslash hhead
    · rw [Text.cutAt?_eq_none_of_not_isInfix hnone]
    · subst hpath
      rw [Text.cutAt?_append hfirst]
      simp [hscheme]

/-- From a path in absolute form exactly the scheme and the authority are dropped. -/
theorem stripAuthority_append (hscheme : isScheme scheme) (hauthority : '/' ∉ authority)
    (hpath : ∀ c, path.head? = some c → c = '/') :
    stripAuthority (scheme ++ "://".toList ++ (authority ++ path)) = originPath path := by
  -- a scheme has no colon, so the first `://` is the one behind it, even if the authority has another
  have hcut : Text.cutAt? "://".toList (scheme ++ "://".toList ++ (authority ++ path)) =
      some (scheme, authority ++ path) :=
    Text.cutAt?_append_of_notMem (notMem_of_isScheme hscheme (by decide)) _
  have hhead : (scheme ++ "://".toList ++ (authority ++ path)).head? ≠ some '/' := by
    cases scheme with
    | nil => cases hscheme
    | cons c rest =>
      intro hslash
      rw [List.cons_append, List.cons_append, List.head?_cons, Option.some.injEq] at hslash
      subst hslash
      exact notMem_of_isScheme hscheme (by decide) List.mem_cons_self
  have hrest : (authority ++ path).dropWhile (· ≠ '/') = path := by
    rw [List.dropWhile_append_of_pos (by simpa using fun c hc => ne_of_mem_of_not_mem hc hauthority)]
    cases path with
    | nil => rfl
    | cons c rest => rw [hpath c rfl]; rfl
  rw [stripAuthority, if_neg hhead, hcut]
  simp only [hscheme, ↓reduceIte, hrest]
  cases path <;> rfl

theorem originPath_plain (h : ∀ c ∈ path, c ≠ '?' ∧ c ≠ '#') :
    ∀ c ∈ originPath path, c ≠ '?' ∧ c ≠ '#' := by
  unfold originPath
  split
  · rw [List.forall_mem_singleton]
    decide
  · exact h

theorem ofText_append (hfront : ∀ c ∈ front, c ≠ '?' ∧ c ≠ '#')
    (hsuffix : ∀ c, suffix.head? = some c → c = '?' ∨ c = '#') : Target.ofText (front ++ suffix) =
      ⟨Text.percentDecode (stripAuthority front), readQuery (queryPart suffix)⟩ := by
  rw [ofText_eq, pathPart_append hfront hsuffix, queryPart_append hfront]

theorem IsAbsolute.ofText_eq (h : IsAbsolute scheme authority path suffix) :
    Target.ofText (scheme ++ "://".toList ++ authority ++ path ++ suffix) =
      Target.ofText (originPath path ++ suffix) := by
  have hplain : ∀ c ∈ scheme ++ "://".toList ++ (authority ++ path), c ≠ '?' ∧ c ≠ '#' := by
    rw [List.forall_mem_append, List.forall_mem_append, List.forall_mem_append]
    refine ⟨⟨fun c hc => ⟨?_, ?_⟩, by simp⟩, fun c hc => (h.authority_plain c hc).2, h.path_plain⟩
    · rintro rfl
      exact notMem_of_isScheme h.isScheme_scheme (by decide) hc
    · rintro rfl
      exact notMem_of_isScheme h.isScheme_scheme (by decide) hc
  have hstrip := stripAuthority_append h.isScheme_scheme
    (fun hslash => (h.authority_plain _ hslash).1 rfl) h.path_head
  have horigin := stripAuthority_of_lacksAuthority (Or.inl (head?_originPath h.path_head))
  rw [List.append_assoc _ authority path, ofText_append hplain h.suffix_head, hstrip,
    ofText_append (originPath_plain h.path_plain) h.suffix_head, horigin]

/-- A target in absolute form means what its path means with the same query and fragment, a path that is
empty being a slash. A path without an authority is decoded as a whole. What follows a `#` means nothing,
and what follows a `?` nothing to the path. -/
theorem ofText_forms :
    (∀ scheme authority path suffix, IsAbsolute scheme authority path suffix →
        Target.ofText (scheme ++ "://".toList ++ authority ++ path ++ suffix) =
          Target.ofText (originPath path ++ suffix)) ∧
      (∀ target, LacksAuthority (pathPart target) →
        (Target.ofText target).path = Text.percentDecode (pathPart target)) ∧
      (∀ target fragment, Target.ofText (target ++ '#' :: fragment) = Target.ofText target) ∧
      ∀ target query, (Target.ofText (target ++ '?' :: query)).path = (Target.ofText target).path := by
  refine ⟨fun scheme authority path suffix h => h.ofText_eq, fun target h => ?_, fun target fragment => ?_,
    fun target query => ?_⟩
  · rw [ofText_eq, stripAuthority_of_lacksAuthority h]
  · have hquery : queryPart (target ++ '#' :: fragment) = queryPart target := by
      rw [queryPart, takeWhile_append_cons_of_neg (by decide)]
      rfl
    rw [ofText_eq, ofText_eq, pathPart, takeWhile_append_cons_of_neg (by decide), hquery]
    rfl
  · rw [ofText_eq, ofText_eq, pathPart, takeWhile_append_cons_of_neg (by decide)]
    rfl

/-- A host with colons and no path, a path that looks like an authority but whose scheme begins with a
digit, and a fragment with a `?`. -/
theorem ofText_forms_odd_authorities :
    Target.ofText "hTTp+x://me@[::1]:80?next=http://x/y#top".toList =
        Target.ofText "/?next=http://x/y#top".toList ∧
      (Target.ofText "1st://host/%41".toList).path = "1st://host/A".toList ∧
      Target.ofText "/a#b?c=1".toList = Target.ofText "/a".toList ∧
      (Target.ofText "a?b=c://d/e".toList).path = (Target.ofText "a".toList).path := by
  obtain ⟨habsolute, hwhole, hfragment, hquery⟩ := ofText_forms
  refine ⟨habsolute "hTTp+x".toList "me@[::1]:80".toList [] "?next=http://x/y#top".toList ?_, ?_,
    hfragment "/a".toList "b?c=1".toList, hquery "a".toList "b=c://d/e".toList⟩
  · exact {
      isScheme_scheme := by decide
      authority_plain := by simp
      path_head := by simp
      path_plain := by simp
      suffix_head := by simp }
  · have hcolon : ':' ∉ "1st".toList := by decide
    have hpath : pathPart "1st://host/%41".toList =
        "1st".toList ++ "://".toList ++ "host/%41".toList := by decide
    have hlacks : LacksAuthority (pathPart "1st://host/%41".toList) :=
      Or.inr (Or.inr ⟨_, _, hpath,
        fun _ _ hcut => Text.length_le_of_notMem hcolon (hpath.symm.trans hcut), by decide⟩)
    rw [hwhole _ hlacks]
    decide

end HttpEcho
