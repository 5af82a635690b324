import QueryFusion.Value.Basic
import QueryFusion.Path

/-!
# Lists on the way of a path

A path leads through some lists and ends in field steps after the last one. The part up to the last
list element is its array prefix; what is after it only follows fields.
-/

namespace QueryFusion

namespace Path

/-- The field steps after the last list element. -/
def fieldPart (p : Path) : Path := p.drop (p.arrayPrefix?.getD []).length

/-- A path to the elements of a list. -/
def IsElement (p : Path) : Prop := p.arrayPrefix? = some p

theorem arrayPrefix?_cons (step : Step) (rest : Path) :
    Path.arrayPrefix? (step :: rest) =
      match rest.arrayPrefix?, step with
      | some inner, step => some (step :: inner)
      | none, .element => some [.element]
      | none, .field _ => none := by
  rw [arrayPrefix?.eq_def]
  dsimp only
  cases Path.arrayPrefix? rest <;> cases step <;> rfl

theorem arrayPrefix?_append (p q : Path) :
    Path.arrayPrefix? (p ++ q) =
      match q.arrayPrefix? with
      | some inner => some (p ++ inner)
      | none => p.arrayPrefix? := by
  induction p with
  | nil => cases h : q.arrayPrefix? <;> simp [h, arrayPrefix?]
  | cons step rest ih =>
    rw [List.cons_append, arrayPrefix?_cons, ih, arrayPrefix?_cons]
    cases q.arrayPrefix? <;> rfl

theorem arrayPrefix?_ofFields (names : List String) : (ofFields names).arrayPrefix? = none := by
  induction names with
  | nil => rfl
  | cons name rest ih =>
    change Path.arrayPrefix? (.field name :: ofFields rest) = none
    rw [arrayPrefix?_cons, ih]

theorem arrayPrefix?_append_ofFields (p : Path) (names : List String) :
    Path.arrayPrefix? (p ++ ofFields names) = p.arrayPrefix? := by
  rw [arrayPrefix?_append, arrayPrefix?_ofFields]

theorem isElement_elements (p : Path) : p.elements.IsElement := by
  unfold IsElement elements
  rw [arrayPrefix?_append]
  rfl

/-- A path without a list is made of fields. -/
theorem eq_ofFields_of_arrayPrefix? : ∀ {p : Path}, p.arrayPrefix? = none →
    ∃ names, p = ofFields names
  | [], _ => ⟨[], rfl⟩
  | step :: rest, found => by
    rw [arrayPrefix?_cons] at found
    cases inner : Path.arrayPrefix? rest with
    | some _ => simp [inner] at found
    | none =>
      cases step with
      | element => simp [inner] at found
      | field name =>
        obtain ⟨names, rfl⟩ := eq_ofFields_of_arrayPrefix? inner
        exact ⟨name :: names, rfl⟩

/-- What comes after the last list element are fields. -/
theorem eq_append_of_arrayPrefix? : ∀ {p q : Path}, p.arrayPrefix? = some q →
    ∃ list names, q = elements list ∧ p = q ++ ofFields names
  | [], _, found => by cases found
  | step :: rest, q, found => by
    rw [arrayPrefix?_cons] at found
    cases inner : Path.arrayPrefix? rest with
    | some deeper =>
      rw [inner] at found
      cases found
      obtain ⟨list, names, rfl, rfl⟩ := eq_append_of_arrayPrefix? inner
      exact ⟨step :: list, names, rfl, rfl⟩
    | none =>
      rw [inner] at found
      cases step with
      | field name => cases found
      | element =>
        cases found
        obtain ⟨names, rfl⟩ := eq_ofFields_of_arrayPrefix? inner
        exact ⟨[], names, rfl, rfl⟩

theorem isElement_of_arrayPrefix? {p q : Path} (found : p.arrayPrefix? = some q) : q.IsElement := by
  obtain ⟨list, names, rfl, _⟩ := eq_append_of_arrayPrefix? found
  exact isElement_elements list

theorem IsElement.eq_elements {p : Path} (isElement : p.IsElement) : p = elements p.dropLast := by
  obtain ⟨list, names, same, _⟩ := eq_append_of_arrayPrefix? isElement
  rw [same]
  simp [elements]

theorem append_fieldPart (p : Path) : p.arrayPrefix?.getD [] ++ p.fieldPart = p := by
  unfold fieldPart
  cases found : p.arrayPrefix? with
  | none => rfl
  | some q =>
    obtain ⟨list, names, _, rfl⟩ := eq_append_of_arrayPrefix? found
    simp

theorem fieldPart_eq_nil_iff {p : Path} :
    p.arrayPrefix?.isSome = true ∧ p.fieldPart = [] ↔ p.IsElement := by
  constructor
  · rintro ⟨found, nothing⟩
    obtain ⟨q, isPrefix⟩ := Option.isSome_iff_exists.mp found
    have whole := append_fieldPart p
    rw [nothing, isPrefix, List.append_nil] at whole
    unfold IsElement
    rw [isPrefix]
    exact congrArg some whole
  · intro isElement
    unfold fieldPart
    rw [isElement]
    simp

theorem prefix_of_arrayPrefix? {p e : Path} (found : p.arrayPrefix? = some e) : e <+: p := by
  obtain ⟨_, names, _, rfl⟩ := eq_append_of_arrayPrefix? found
  exact List.prefix_append e _

theorem IsElement.length_pos {p : Path} (isElement : p.IsElement) : 0 < p.length := by
  rw [isElement.eq_elements]
  unfold elements
  simp

end Path

namespace Value

theorem navigate_missing (p : Path) : missing.navigate p = missing := by
  cases p with
  | nil => rfl
  | cons step rest => cases step <;> rfl

theorem navigate_append (v : Value) (p q : Path) : v.navigate (p ++ q) = (v.navigate p).navigate q := by
  induction p generalizing v with
  | nil => rfl
  | cons step rest ih =>
    cases step with
    | element => exact (navigate_missing q).symm
    | field name =>
      rw [List.cons_append, navigate, navigate]
      cases v.field? name with
      | none => exact (navigate_missing q).symm
      | some inner => exact ih inner

end Value

end QueryFusion

/-!
## Reading the text of a path back

The text of a path is read part by part: the points separate the parts, and each part is a name with
element marks after it. Names that are not empty, have no point in them and do not end in an element
mark come back as they were. Reading makes only such names, so reading a text, writing what was read
and reading again changes nothing, whatever the text is.
-/

namespace QueryFusion.Path

/-- The text of an element step. -/
def elementMark : List Char := ['[', '*', ']']

/-- A name that a text can hold: it is not empty, has no point in it and does not end in an element
mark. -/
def IsPlainName (name : List Char) : Prop := name ≠ [] ∧ '.' ∉ name ∧ ¬ elementMark <:+ name

/-- A path in which all names are plain. -/
def IsPlain (p : Path) : Prop := ∀ name, .field name ∈ p → IsPlainName name.toList

variable {part left : List Char}

/-! ## Parts -/

theorem splitPoints_append (apart : '.' ∉ part) (cs : List Char) :
    splitPoints (part ++ '.' :: cs) = part :: splitPoints cs := by
  induction part with
  | nil => rfl
  | cons c part ih =>
    rw [List.cons_append, splitPoints, ih (List.not_mem_of_not_mem_cons apart)]
    exact (List.ne_of_not_mem_cons apart).symm

theorem splitPoints_single (apart : '.' ∉ part) : splitPoints part = [part] := by
  induction part with
  | nil => rfl
  | cons c part ih =>
    rw [splitPoints, ih (List.not_mem_of_not_mem_cons apart)]
    exact (List.ne_of_not_mem_cons apart).symm

theorem not_mem_of_splitPoints : ∀ {cs part : List Char}, part ∈ splitPoints cs → '.' ∉ part := by
  intro cs
  fun_induction splitPoints cs with
  | case1 => simp
  | case2 rest ih => simpa using fun _ => ih
  | case3 c rest isOther first others split ih =>
    rw [split] at ih
    intro part member
    rcases List.mem_cons.mp member with rfl | later
    · exact List.not_mem_cons_of_ne_of_not_mem (Ne.symm isOther) (ih List.mem_cons_self)
    · exact ih (List.mem_cons_of_mem _ later)
  | case4 c rest isOther split => simpa using Ne.symm isOther

/-- A mark at the end of a part is one more element step. -/
theorem partSteps_mark (part : List Char) :
    partSteps (part ++ elementMark) = partSteps part ++ [.element] := by
  have strips : stripElements (part ++ elementMark).reverse =
      ((stripElements part.reverse).1 + 1, (stripElements part.reverse).2) := by
    rw [List.reverse_append]
    rfl
  unfold partSteps
  rw [strips, List.append_assoc, ← List.replicate_succ']

theorem partSteps_name {name : String} (plain : IsPlainName name.toList) :
    partSteps name.toList = [.field name] := by
  obtain ⟨isSome, _, unmarked⟩ := plain
  have strips : stripElements name.toList.reverse = (0, name.toList.reverse) := by
    unfold stripElements
    split
    · next rest same =>
      refine absurd ⟨rest.reverse, ?_⟩ unmarked
      rw [← List.reverse_reverse name.toList, same]
      simp [elementMark]
    · rfl
  unfold partSteps
  rw [strips]
  simp [isSome]

theorem stripElements_left : ∀ (cs : List Char) {count : Nat}, stripElements cs = (count, left) →
    left <:+ cs ∧ ¬ elementMark.reverse <+: left := by
  intro cs
  fun_induction stripElements cs with
  | case1 rest inner other same ih =>
    rintro _ ⟨⟩
    obtain ⟨suffix, unmarked⟩ := ih same
    exact ⟨suffix.trans (List.suffix_append [']', '*', '['] rest), unmarked⟩
  | case2 cs unmarked =>
    rintro _ ⟨⟩
    refine ⟨List.suffix_rfl, ?_⟩
    rintro ⟨rest, rfl⟩
    exact unmarked rest rfl

theorem isPlain_partSteps (apart : '.' ∉ part) : IsPlain (partSteps part) := by
  intro name member
  rcases List.mem_append.mp member with isName | isMark
  · split at isName
    · cases isName
    · next isSome =>
      cases List.mem_singleton.mp isName
      obtain ⟨suffix, unmarked⟩ := stripElements_left part.reverse rfl
      rw [String.toList_ofList]
      refine ⟨?_, fun isPoint => apart ?_, fun marked => unmarked ?_⟩
      · simpa using isSome
      · exact List.mem_reverse.mp (suffix.subset (List.mem_reverse.mp isPoint))
      · exact List.reverse_suffix.mp (by rw [List.reverse_reverse]; exact marked)
  · cases (List.mem_replicate.mp isMark).2

/-! ## Texts -/

theorem ofChars_tailChars : ∀ (rest : Path) (part : List Char), IsPlain rest → '.' ∉ part →
    ofChars (part ++ tailChars rest) = partSteps part ++ rest
  | [], part, _, apart => by
    rw [tailChars, List.append_nil, ofChars, splitPoints_single apart, List.flatMap_singleton,
      List.append_nil]
  | .element :: rest, part, plain, apart => by
    have apart' : '.' ∉ part ++ elementMark := by simpa [elementMark] using apart
    have longer := ofChars_tailChars rest _ (fun name member => plain name (List.mem_cons_of_mem _ member))
      apart'
    rw [partSteps_mark, List.append_assoc, List.append_assoc] at longer
    exact longer
  | .field name :: rest, part, plain, apart => by
    have isName := plain name List.mem_cons_self
    have next := ofChars_tailChars rest _ (fun name member => plain name (List.mem_cons_of_mem _ member))
      isName.2.1
    rw [partSteps_name isName] at next
    rw [tailChars, ofChars, List.cons_append, splitPoints_append apart, List.flatMap_cons]
    exact congrArg (partSteps part ++ ·) next

theorem ofChars_toChars {p : Path} (plain : p.IsPlain) : ofChars p.toChars = p := by
  have fromStart := ofChars_tailChars p [] plain List.not_mem_nil
  cases p with
  | nil => exact fromStart
  | cons step rest =>
    cases step with
    | element => exact fromStart
    | field name =>
      have isName := plain name List.mem_cons_self
      have next := ofChars_tailChars rest _ (fun name member => plain name (List.mem_cons_of_mem _ member))
        isName.2.1
      rw [partSteps_name isName] at next
      exact next

theorem isPlain_ofChars (cs : List Char) : IsPlain (ofChars cs) := by
  intro name member
  obtain ⟨part, isPart, isStep⟩ := List.mem_flatMap.mp member
  exact isPlain_partSteps (not_mem_of_splitPoints isPart) name isStep

/-- Paths with plain names come back from their texts, and what is read from any text comes back from
its own text. -/
theorem parse_text : (∀ p : Path, p.IsPlain → parse p.text = p) ∧
    ∀ s, parse (parse s).text = parse s := by
  have reads {p : Path} (plain : p.IsPlain) : parse p.text = p := by
    unfold parse text
    rw [String.toList_ofList, ofChars_toChars plain]
  exact ⟨fun _ => reads, fun s => reads (isPlain_ofChars s.toList)⟩

/-- Marks in the middle of a name, in front and repeated. -/
theorem parse_text_marked : parse (text [.element, .field "a[*]b", .element, .element, .field "]"]) =
    [.element, .field "a[*]b", .element, .element, .field "]"] := by
  refine parse_text.1 _ fun name member => ?_
  simp only [List.mem_cons, Step.field.injEq, reduceCtorEq, List.not_mem_nil, false_or, or_false] at member
  rcases member with rfl | rfl <;> exact ⟨by decide, by decide, by decide⟩

end QueryFusion.Path
