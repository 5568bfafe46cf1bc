import JsonShapes.Failure.Path
import JsonShapes.Text.Digits
import Mathlib.Data.List.SplitBy

/-! # Landmarks

A path shows its landmarks: the names, positions and branches that it passes, without the named definitions
and without what has to be there. Its text is cut in front of every dot and every opening bracket, and each
section tells one landmark. This asks for names that are not empty and hold none of these characters; digits
and closing brackets do no harm.
-/
namespace JsonShapes
set_option autoImplicit false

/-- What is shown of a step. -/
inductive Landmark where
  | key (name : String)
  | index (position : Nat)
  | member (branch : Nat)
deriving DecidableEq

def Step.landmark? : Step → Option Landmark
  | .key name _ => some (.key name)
  | .index position _ => some (.index position)
  | .member branch => some (.member branch)
  | .lazy _ => none

def Path.landmarks (path : Path) : List Landmark := path.filterMap Step.landmark?

/-- A name that is neither missed nor taken for several landmarks. -/
def LegibleName (name : String) : Prop :=
  name ≠ "" ∧ '.' ∉ name.toList ∧ '[' ∉ name.toList ∧ '<' ∉ name.toList

instance (name : String) : Decidable (LegibleName name) := inferInstanceAs (Decidable (_ ∧ _))

def Path.Legible (path : Path) : Prop :=
  ∀ name presence, .key name presence ∈ path → LegibleName name

namespace Landmark

def Legible : Landmark → Prop
  | .key name => LegibleName name
  | _ => True

instance : DecidablePred Legible
  | .key name => inferInstanceAs (Decidable (LegibleName name))
  | .index _ | .member _ => inferInstanceAs (Decidable True)

/-! ## Sections -/

/-- The characters in front of which a text is cut. -/
def opens (c : Char) : Bool := c == '.' || c == '[' || c == '<'

theorem opens_eq_false_iff {c : Char} : opens c = false ↔ c ≠ '.' ∧ c ≠ '[' ∧ c ≠ '<' := by
  simp [opens, and_assoc]

theorem opens_of_isDigit {c : Char} (h : c.isDigit) : opens c = false := by
  rw [opens_eq_false_iff]
  refine ⟨?_, ?_, ?_⟩ <;> rintro rfl <;> cases h

theorem opens_of_mem_name {name : String} (h : LegibleName name) :
    ∀ c ∈ name.toList, opens c = false := by
  obtain ⟨_, hDot, hBracket, hAngle⟩ := h
  intro c hc
  rw [opens_eq_false_iff]
  refine ⟨?_, ?_, ?_⟩ <;> rintro rfl <;> contradiction

/-- A number and the bracket after it. -/
def enclosed (n : Nat) (closing : Char) : List Char := (toString n).toList ++ [closing]

def opening : Landmark → Char
  | .key _ => '.'
  | .index _ => '['
  | .member _ => '<'

def body : Landmark → List Char
  | .key name => name.toList
  | .index position => enclosed position ']'
  | .member branch => enclosed branch '>'

/-- What is written of a landmark with others before it. -/
def later (l : Landmark) : List Char := l.opening :: l.body

/-- What is written of the first landmark: a name goes without its dot. -/
def foremost : Landmark → List Char
  | .key name => name.toList
  | l => l.later

/-- What is written of several landmarks, one section for each. -/
def sections (fresh : Bool) : List Landmark → List (List Char)
  | [] => []
  | first :: rest => (if fresh then first.foremost else first.later) :: rest.map later

theorem sections_false (ls : List Landmark) : sections false ls = ls.map later := by
  cases ls <;> rfl

theorem opens_opening (l : Landmark) : opens l.opening := by
  cases l <;> rfl

theorem opens_of_mem_enclosed {n : Nat} {closing : Char} (h : opens closing = false) :
    ∀ c ∈ enclosed n closing, opens c = false := by
  intro c hc
  rcases List.mem_append.mp hc with hDigit | hClosing
  · exact opens_of_isDigit (Text.isDigit_of_mem_toString hDigit)
  · rwa [List.mem_singleton.mp hClosing]

theorem opens_of_mem_body {l : Landmark} (h : l.Legible) : ∀ c ∈ l.body, opens c = false := by
  cases l with
  | key name => exact opens_of_mem_name h
  | index position => exact opens_of_mem_enclosed rfl
  | member branch => exact opens_of_mem_enclosed rfl

/-- There is something in the section, and it is not cut any further. -/
def Whole (cs : List Char) : Prop :=
  ∃ c rest, cs = c :: rest ∧ ∀ d ∈ rest, opens d = false

theorem whole_later {l : Landmark} (h : l.Legible) : Whole l.later :=
  ⟨l.opening, l.body, rfl, opens_of_mem_body h⟩

theorem whole_foremost {l : Landmark} (h : l.Legible) : Whole l.foremost := by
  cases l with
  | key name =>
    have hSome : name.toList ≠ [] := by simpa using h.1
    obtain ⟨c, rest, hCons⟩ := List.exists_cons_of_ne_nil hSome
    refine ⟨c, rest, hCons, ?_⟩
    intro d hd
    exact opens_of_mem_name h d (hCons ▸ List.mem_cons_of_mem c hd)
  | index position => exact whole_later (l := .index position) h
  | member branch => exact whole_later (l := .member branch) h

theorem Whole.isChain {cs : List Char} (h : Whole cs) : cs.IsChain fun _ d => !opens d := by
  obtain ⟨c, rest, rfl, hRest⟩ := h
  have hClosed : ∀ d ∈ rest, (!opens d) = true := by
    intro d hd
    rw [hRest d hd, Bool.not_false]
  exact List.Pairwise.isChain
    (List.pairwise_cons.mpr ⟨hClosed, List.pairwise_of_forall_mem_list fun _ _ d hd => hClosed d hd⟩)

/-- Cutting a text undoes writing its sections one after the other. -/
theorem splitBy_sections {ls : List Landmark} (h : ∀ l ∈ ls, l.Legible) :
    (sections true ls).flatten.splitBy (fun _ c => !opens c) = sections true ls := by
  cases ls with
  | nil => rfl
  | cons first rest =>
    obtain ⟨hFirst, hRest⟩ := List.forall_mem_cons.mp h
    have hWhole : ∀ cs ∈ sections true (first :: rest), Whole cs :=
      List.forall_mem_cons.mpr
        ⟨whole_foremost hFirst, List.forall_mem_map.mpr fun l hl => whole_later (hRest l hl)⟩
    have hSome : ∀ cs ∈ sections true (first :: rest), cs ≠ [] := by
      intro cs hcs
      obtain ⟨c, rest, rfl, _⟩ := hWhole cs hcs
      exact List.cons_ne_nil c rest
    have hOpens : ∀ cs ∈ sections true (first :: rest), ∀ cs' ∈ rest.map later,
        ∃ (_ : cs ≠ []) (hSome' : cs' ≠ []), (!opens (cs'.head hSome')) = false := by
      intro cs hcs cs' hcs'
      obtain ⟨l, _, rfl⟩ := List.mem_map.mp hcs'
      exact ⟨hSome cs hcs, List.cons_ne_nil _ _, congrArg Bool.not (opens_opening l)⟩
    apply List.splitBy_flatten
    · exact fun hNil => hSome [] hNil rfl
    · exact fun cs hcs => (hWhole cs hcs).isChain
    · apply List.Pairwise.isChain
      refine List.pairwise_cons.mpr ⟨hOpens _ List.mem_cons_self, ?_⟩
      apply List.pairwise_of_forall_mem_list
      intro cs hcs cs' hcs'
      exact hOpens cs (List.mem_cons_of_mem _ hcs) cs' hcs'

/-! ## Reading -/

/-- The landmark that a section tells. -/
def read : List Char → Landmark
  | '[' :: rest => .index (Text.digitsValue (Text.spanDigits rest).1)
  | '<' :: rest => .member (Text.digitsValue (Text.spanDigits rest).1)
  | '.' :: rest => .key (String.ofList rest)
  | name => .key (String.ofList name)

theorem digitsValue_enclosed (n : Nat) {closing : Char} (h : closing.isDigit = false) :
    Text.digitsValue (Text.spanDigits (enclosed n closing)).1 = n := by
  rw [enclosed, Text.spanDigits_toString n h, Text.digitsValue_toString]

theorem read_later (l : Landmark) : read l.later = l := by
  cases l with
  | key name => exact congrArg key String.ofList_toList
  | index position => exact congrArg index (digitsValue_enclosed position rfl)
  | member branch => exact congrArg member (digitsValue_enclosed branch rfl)

theorem read_unopened {cs : List Char} (h : ∀ c ∈ cs, opens c = false) :
    read cs = .key (String.ofList cs) := by
  unfold read
  split
  · cases h '[' List.mem_cons_self
  · cases h '<' List.mem_cons_self
  · cases h '.' List.mem_cons_self
  · rfl

theorem read_foremost {l : Landmark} (h : l.Legible) : read l.foremost = l := by
  cases l with
  | key name => rw [foremost, read_unopened (opens_of_mem_name h), String.ofList_toList]
  | index position => exact read_later (.index position)
  | member branch => exact read_later (.member branch)

theorem map_read_sections {ls : List Landmark} (h : ∀ l ∈ ls, l.Legible) :
    (sections true ls).map read = ls := by
  cases ls with
  | nil => rfl
  | cons first rest =>
    have hLater : read ∘ later = id := funext read_later
    rw [sections, if_pos rfl, List.map_cons, List.map_map, hLater, List.map_id,
      read_foremost (h first List.mem_cons_self)]

/-- What is read from a text. -/
def ofText (text : String) : List Landmark :=
  (text.toList.splitBy fun _ c => !opens c).map read

end Landmark

/-! ## Paths -/

namespace Path

/-- A step that is not shown leaves it open whether something has been written. -/
theorem textFrom_hidden {step : Step} (h : step.landmark? = none) (fresh : Bool) (rest : Path) :
    textFrom fresh (step :: rest) = textFrom fresh rest := by
  cases step with
  | lazy id => rw [textFrom]
  | _ => cases h

theorem toList_textFrom_shown {step : Step} {l : Landmark} (h : step.landmark? = some l) (fresh : Bool)
    (rest : Path) : (textFrom fresh (step :: rest)).toList =
      (if fresh then l.foremost else l.later) ++ (textFrom false rest).toList := by
  cases step with
  | key name presence =>
    cases h
    cases fresh <;> simp [textFrom, Landmark.foremost, Landmark.later, Landmark.opening, Landmark.body]
  | index position presence =>
    cases h
    simp [textFrom, Landmark.foremost, Landmark.later, Landmark.opening, Landmark.body, Landmark.enclosed]
  | member branch =>
    cases h
    simp [textFrom, Landmark.foremost, Landmark.later, Landmark.opening, Landmark.body, Landmark.enclosed]
  | lazy id => cases h

theorem toList_textFrom (fresh : Bool) (path : Path) :
    (textFrom fresh path).toList = (Landmark.sections fresh path.landmarks).flatten := by
  induction path generalizing fresh with
  | nil => rfl
  | cons step rest ih =>
    cases hShown : step.landmark? with
    | none => rw [textFrom_hidden hShown, ih, landmarks, landmarks, List.filterMap_cons_none hShown]
    | some l =>
      rw [toList_textFrom_shown hShown, ih, Landmark.sections_false, landmarks, landmarks,
        List.filterMap_cons_some hShown, Landmark.sections, List.flatten_cons]

theorem toList_text (path : Path) : path.text.toList = (Landmark.sections true path.landmarks).flatten :=
  toList_textFrom true path

theorem legible_iff {path : Path} : path.Legible ↔ ∀ l ∈ path.landmarks, l.Legible := by
  constructor
  · intro h l hl
    obtain ⟨step, hStep, hShown⟩ := List.mem_filterMap.mp hl
    cases step with
    | key name presence =>
      cases hShown
      exact h name presence hStep
    | index position presence =>
      cases hShown
      trivial
    | member branch =>
      cases hShown
      trivial
    | lazy id => cases hShown
  · intro h name presence hStep
    exact h (.key name) (List.mem_filterMap.mpr ⟨_, hStep, rfl⟩)

instance (path : Path) : Decidable path.Legible := decidable_of_iff _ legible_iff.symm

theorem ofText_text {path : Path} (h : path.Legible) : Landmark.ofText path.text = path.landmarks := by
  have hLandmarks := legible_iff.mp h
  rw [Landmark.ofText, toList_text, Landmark.splitBy_sections hLandmarks, Landmark.map_read_sections hLandmarks]

/-- Two paths of legible names have the same text exactly when they show the same landmarks: whatever named
definitions they pass, wherever they pass them, and whatever has to be there, the text tells the place. -/
theorem text_eq_iff_landmarks_eq {path path' : Path} (h : path.Legible) (h' : path'.Legible) :
    path.text = path'.text ↔ path.landmarks = path'.landmarks := by
  constructor
  · intro hText
    rw [← ofText_text h, hText, ofText_text h']
  · intro hLandmarks
    rw [← String.toList_inj, toList_text, toList_text, hLandmarks]

/-- A name with a dot in it can be taken for two. -/
example : text [.key "leaf.stalk" .required] = text [.key "leaf" .required, .key "stalk" .required] := rfl

namespace Orchards

def wild : Path := [.lazy "Tree", .key "boughs" .required, .index 12 .optional, .lazy "Tree", .lazy "Bough",
  .key "leaf" .optional, .member 1]

/-- The same place in a schema that names no definition but the last. -/
def planted : Path := [.key "boughs" .optional, .index 12 .required, .key "leaf" .required, .member 1,
  .lazy "Fruit"]

theorem wild_legible : wild.Legible := by decide

theorem planted_legible : planted.Legible := by decide

theorem one_place_told : wild.Legible ∧ planted.Legible ∧ wild.text = planted.text ∧
    wild.landmarks = [.key "boughs", .index 12, .key "leaf", .member 1] ∧
    (wild.text = planted.text ↔ wild.landmarks = planted.landmarks) := by
  have hIff := text_eq_iff_landmarks_eq wild_legible planted_legible
  exact ⟨wild_legible, planted_legible, hIff.mpr rfl, rfl, hIff⟩

end Orchards

end Path
end JsonShapes
