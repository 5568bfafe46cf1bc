import JsonShapes.Proofs.Semantics
import JsonShapes.Schema.Session

/-! # Where links are placed

A registry only ever grows, so the handle that a link has been given stays the handle of its identifier
and site. A shape that was built in a store is the direct reading of its schema with every link replaced
by its place, and it stays so in every later store.
-/
namespace JsonShapes
set_option autoImplicit false

/-- One thunk for each identifier and site, and one schema for each key. -/
structure Assignment where
  target : String → Nat → String
  body : SchemaKey → Schema

namespace Schema

mutual

def keyed : Schema → List (SchemaKey × Schema)
  | kind _ | literal _ | lazy _ => []
  | nullable s | record s | array s | refine s _ _ | make none s => s.keyed
  | object props | partialObject props | tagged _ props => keyedNamed props
  | tuple items | union items => keyedEach items
  | inter left right => left.keyed ++ right.keyed
  | make (some key) body => (key, body) :: body.keyed

def keyedEach : List Schema → List (SchemaKey × Schema)
  | [] => []
  | s :: rest => s.keyed ++ keyedEach rest

def keyedNamed : List (String × Schema) → List (SchemaKey × Schema)
  | [] => []
  | (_, s) :: rest => s.keyed ++ keyedNamed rest

end

/-- Every link has the thunk, and every schema with a key is the schema, that `A` assigns. -/
structure Follows (A : Assignment) (s : Schema) : Prop where
  links : ∀ link ∈ s.links, link.target = A.target link.id link.site
  keyed : ∀ e ∈ s.keyed, e.2 = A.body e.1

end Schema

def Definitions.Follow (A : Assignment) (definitions : Definitions) : Prop :=
  ∀ e ∈ definitions, e.2.Follows A

/-! ## Trees

A recursive shape with one name, whose schema is kept under a key.
-/

namespace Trees

def link : Link := ⟨"Tree", 1, "Tree"⟩

def body : Schema :=
  .object [("label", .kind .string), ("rest", .tuple [.nullable (.lazy link), .nullable (.lazy link)])]

def key : SchemaKey := ⟨"Tree", none⟩

def schema : Schema := .make (some key) body

def definitions : Definitions := [("Tree", schema)]

def assignment : Assignment where
  target _ _ := "Tree"
  body _ := body

theorem schema_follows : schema.Follows assignment where
  links link hLink := by
    simp only [schema, body, Schema.links, Schema.linksNamed, Schema.linksEach, List.append_nil,
      List.nil_append, List.mem_append, List.mem_singleton, or_self] at hLink
    rw [hLink]
    rfl
  keyed e he := by
    simp only [schema, body, Schema.keyed, Schema.keyedNamed, Schema.keyedEach, List.append_nil,
      List.mem_singleton] at he
    rw [he]
    rfl

theorem definitions_follow : definitions.Follow assignment := by
  intro e he
  cases List.mem_singleton.mp he
  exact schema_follows

end Trees

namespace Registry
variable {τ ρ : Type}

def places (r : Registry τ ρ) : List (String × Nat) := r.definitions.map fun d => (d.id, d.site)

theorem findIdx?_matching (r : Registry τ ρ) (id : String) (site : Nat) :
    r.definitions.findIdx? (matching id site) = r.places.findIdx? (· == (id, site)) := by
  rw [places, List.findIdx?_map]
  rfl

theorem define_spec (r : Registry τ ρ) (id : String) (site : Nat) (thunk : τ) :
    (r.define id site thunk).1 = (r.define id site thunk).2.places.idxOf (id, site) ∧
      r.places <+: (r.define id site thunk).2.places ∧
      (id, site) ∈ (r.define id site thunk).2.places := by
  unfold define
  rw [findIdx?_matching]
  cases h : r.places.findIdx? (· == (id, site)) with
  | some handle =>
    obtain ⟨hFound, hIdx⟩ := List.findIdx?_eq_some_iff_findIdx_eq.mp h
    have hMem : (id, site) ∈ r.places := by
      rw [← List.idxOf_lt_length_iff, List.idxOf, hIdx]
      exact hFound
    exact ⟨hIdx.symm, List.prefix_rfl, hMem⟩
  | none =>
    have hNew : (id, site) ∉ r.places := by
      intro hMem
      have h := List.findIdx?_eq_none_iff.mp h _ hMem
      simp at h
    have hPlaces : ({ r with definitions := r.definitions ++ [⟨id, site, thunk, none⟩] } :
        Registry τ ρ).places = r.places ++ [(id, site)] := List.map_append
    refine ⟨?_, ?_, ?_⟩
    · rw [hPlaces, List.idxOf_append_of_notMem hNew]
      simp [places]
    · rw [hPlaces]
      exact List.prefix_append _ _
    · rw [hPlaces]
      exact List.mem_append_right _ List.mem_cons_self

end Registry

/-! ## Readings up to the naming of references -/

namespace Interpretation
variable {σ τ ρ : Type}

theorem comap_related (I : Interpretation τ ρ) (f g : σ → τ) :
    (I.comap f).Related Eq (I.comap g) where
  kind _ := rfl
  literal _ := rfl
  nullable h := congrArg I.nullable h
  object h := congrArg I.object h.eq
  partialObject h := congrArg I.partialObject h.eq
  record h := congrArg I.record h
  array h := congrArg I.array h
  tuple h := congrArg I.tuple (List.forall₂_eq_eq_eq ▸ h)
  union h := congrArg I.union (List.forall₂_eq_eq_eq ▸ h)
  inter h h' := congrArg₂ I.inter h h'
  tagged tag _ _ h := congrArg (I.tagged tag) h.eq
  refine holds expected _ _ h := congrArg (I.refine · holds expected) h

end Interpretation

namespace Store
variable {ρ : Type}

def place (s : Store ρ) (link : Link) : Nat := s.registry.places.idxOf (link.id, link.site)

def Knows (s : Store ρ) (link : Link) : Prop := (link.id, link.site) ∈ s.registry.places

def Extends (s s' : Store ρ) : Prop := s.registry.places <+: s'.registry.places

namespace Extends
variable {s s' s'' : Store ρ}

theorem refl (s : Store ρ) : s.Extends s := List.prefix_rfl

theorem trans (h : s.Extends s') (h' : s'.Extends s'') : s.Extends s'' := List.IsPrefix.trans h h'

theorem knows (h : s.Extends s') {link : Link} (hKnows : s.Knows link) : s'.Knows link :=
  h.subset hKnows

theorem place_eq (h : s.Extends s') {link : Link} (hKnows : s.Knows link) :
    s'.place link = s.place link := by
  obtain ⟨later, hLater⟩ := h
  rw [place, place, ← hLater]
  exact List.idxOf_append_of_mem hKnows

end Extends

section
variable (I : Interpretation Nat ρ)

/-- `r` is the direct reading of the schema, its links being placed as they are in `s`. -/
structure Represents (s : Store ρ) (schema : Schema) (r : ρ) : Prop where
  knows : ∀ link ∈ schema.links, s.Knows link
  unfold_eq : schema.unfold (I.comap s.place) = r

structure RepresentsEach (s : Store ρ) (schemas : List Schema) (rs : List ρ) : Prop where
  knows : ∀ link ∈ Schema.linksEach schemas, s.Knows link
  unfold_eq : Schema.unfoldEach (I.comap s.place) schemas = rs

structure RepresentsNamed (s : Store ρ) (schemas : List (String × Schema)) (rs : Entries ρ) : Prop where
  knows : ∀ link ∈ Schema.linksNamed schemas, s.Knows link
  unfold_eq : Schema.unfoldNamed (I.comap s.place) schemas = rs

end

variable {I : Interpretation Nat ρ} {s s' : Store ρ}

theorem Represents.mono {schema : Schema} {r : ρ} (h : s.Represents I schema r)
    (hExtends : s.Extends s') : s'.Represents I schema r := by
  constructor
  · intro link hLink
    exact hExtends.knows (h.knows link hLink)
  · rw [← h.unfold_eq]
    apply schema.unfold_related (I.comap_related s'.place s.place)
    intro link hLink
    exact congrArg (I.lazy link.id) (hExtends.place_eq (h.knows link hLink))

/-- What the definitions and the cache of a store hold is read from the schemas that the assignment
and the links name, and nothing else. -/
structure Sound (I : Interpretation Nat ρ) (definitions : Definitions) (A : Assignment)
    (s : Store ρ) : Prop where
  thunks : ∀ d ∈ s.registry.definitions, d.thunk = A.target d.id d.site
  values : ∀ d ∈ s.registry.definitions, ∀ r, d.value = some r →
    ∃ schema, definitions.get? d.thunk = some schema ∧ s.Represents I schema r
  cached : ∀ key r, s.cache.get? key = some r → s.Represents I (A.body key) r

theorem sound_empty (definitions : Definitions) (A : Assignment) :
    (empty : Store ρ).Sound I definitions A where
  thunks _ h := by cases h
  values _ h := by cases h
  cached _ _ h := by cases h

end Store

end JsonShapes
