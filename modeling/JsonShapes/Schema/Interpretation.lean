import JsonShapes.Schema.Basic
import JsonShapes.Codec
import JsonShapes.Registry.Basic

/-! # Reading schemas

An interpretation says what each way to make a schema becomes. `Schema.unfold` reads a schema directly
and leaves its links as they are. `Schema.build` reads it in a store: a link becomes the handle of a
definition, and a schema with a key is read once and taken from the cache from then on.
-/
namespace JsonShapes
set_option autoImplicit false

structure Interpretation (σ ρ : Type) where
  kind : Kind → ρ
  literal : List Value → ρ
  nullable : ρ → ρ
  object : List (String × ρ) → ρ
  partialObject : List (String × ρ) → ρ
  record : ρ → ρ
  array : ρ → ρ
  tuple : List ρ → ρ
  union : List ρ → ρ
  inter : ρ → ρ → ρ
  tagged : String → List (String × ρ) → ρ
  refine : ρ → (Value → Bool) → String → ρ
  lazy : String → σ → ρ

namespace Interpretation
variable {σ : Type}

/-- Kinds are told by their guards, so decoded values keep their numbers as they were given. -/
def decoding : Interpretation σ (Decoder σ) where
  kind k := .guarded (.kind k) k.expected
  literal := .literal
  nullable := .nullable
  object := .object
  partialObject := .partialObject
  record := .record
  array := .array
  tuple := .tuple
  union := .union
  inter := .inter
  tagged := .tagged
  refine := Decoder.restrict
  lazy := .lazy

/-- Plain decoders tell kinds themselves, give every number as a float and refine what they have decoded. -/
def plain : Interpretation σ (Decoder σ) :=
  { decoding with
    kind := fun k => if k = .number then .float else .kind k
    refine := Decoder.refine }

def guarding : Interpretation σ (Guard σ) where
  kind := .kind
  literal := .literal
  nullable := .nullable
  object := .object
  partialObject := .partialObject
  record := .record
  array := .array
  tuple := .tuple
  union := .union
  inter := .inter
  tagged := .tagged
  refine of holds _ := .refine of holds
  lazy _ := .lazy

/-- Values of the shape are written as they are, whatever refines them. Encoders have no combinator for unions,
since nothing tells which member a value belongs to; here a union leaves it alone, so that every schema has an
encoder. -/
def encoding : Interpretation σ (Encoder σ) where
  kind _ := .id
  literal _ := .id
  nullable := .nullable
  object := .object
  partialObject := .partialObject
  record := .record
  array := .array
  tuple := .tuple
  union _ := .id
  inter := .inter
  tagged := .tagged
  refine of _ _ := of
  lazy _ := .lazy

/-- Codecs decode as plain decoders do. -/
def pairing : Interpretation σ (Codec σ) where
  kind
    | .null => .literal [.null]
    | .boolean => .boolean
    | .number => .number
    | .string => .string
    | .array => .anyArray
    | .object => .anyObject
  literal := Codec.literal
  nullable := Codec.nullable
  object := Codec.object
  partialObject := Codec.partialObject
  record := Codec.record
  array := Codec.array
  tuple := Codec.tuple
  union members := .ofDecoder (.union (members.map (·.decoder)))
  inter := Codec.inter
  tagged := Codec.tagged
  refine := Codec.refine
  lazy := Codec.lazy

end Interpretation

/-- What the interpreters of a schema share: the definitions they have made, the representations
they have kept, and the keys of the schemas they have read, the latest last. -/
structure Store (ρ : Type) where
  registry : Registry String ρ
  cache : Cache ρ
  made : List (Option SchemaKey)

namespace Store
variable {ρ : Type}

def empty : Store ρ := ⟨.empty, .empty, []⟩

def registryPart : Part (Store ρ) (Registry String ρ) where
  get s := s.registry
  modify f s := { s with registry := f s.registry }

def define (link : Link) : StateM (Store ρ) Nat := modifyGet fun s =>
  let (handle, registry) := s.registry.define link.id link.site link.target
  (handle, { s with registry })

def recordMake (key : Option SchemaKey) : StateM (Store ρ) Unit := modify fun s =>
  { s with made := s.made ++ [key] }

def insert (key : SchemaKey) (built : ρ) : StateM (Store ρ) ρ := modifyGet fun s =>
  let (kept, cache) := s.cache.insert key built
  (kept, { s with cache })

/-- Reads a schema made under `key`, unless the cache has it. -/
def make (key : Option SchemaKey) (read : StateM (Store ρ) ρ) : StateM (Store ρ) ρ := do
  match key with
  | none =>
    recordMake none
    read
  | some k =>
    match (← get).cache.get? k with
    | some kept => return kept
    | none =>
      recordMake key
      let built ← read
      insert k built

end Store

namespace Schema
variable {σ ρ : Type}

mutual

def unfold (I : Interpretation Link ρ) : Schema → ρ
  | kind k => I.kind k
  | literal values => I.literal values
  | nullable or => I.nullable (or.unfold I)
  | object props => I.object (unfoldNamed I props)
  | partialObject props => I.partialObject (unfoldNamed I props)
  | record of => I.record (of.unfold I)
  | array of => I.array (of.unfold I)
  | tuple slots => I.tuple (unfoldEach I slots)
  | union members => I.union (unfoldEach I members)
  | inter left right => I.inter (left.unfold I) (right.unfold I)
  | tagged tag members => I.tagged tag (unfoldNamed I members)
  | refine of holds expected => I.refine (of.unfold I) holds expected
  | lazy link => I.lazy link.id link
  | make _ body => body.unfold I

def unfoldEach (I : Interpretation Link ρ) : List Schema → List ρ
  | [] => []
  | s :: rest => s.unfold I :: unfoldEach I rest

def unfoldNamed (I : Interpretation Link ρ) : List (String × Schema) → List (String × ρ)
  | [] => []
  | (name, s) :: rest => (name, s.unfold I) :: unfoldNamed I rest

end

mutual

def build (I : Interpretation Nat ρ) : Schema → StateM (Store ρ) ρ
  | kind k => return I.kind k
  | literal values => return I.literal values
  | nullable or => return I.nullable (← or.build I)
  | object props => return I.object (← buildNamed I props)
  | partialObject props => return I.partialObject (← buildNamed I props)
  | record of => return I.record (← of.build I)
  | array of => return I.array (← of.build I)
  | tuple slots => return I.tuple (← buildEach I slots)
  | union members => return I.union (← buildEach I members)
  | inter left right => do
    let left ← left.build I
    let right ← right.build I
    return I.inter left right
  | tagged tag members => return I.tagged tag (← buildNamed I members)
  | refine of holds expected => return I.refine (← of.build I) holds expected
  | lazy link => return I.lazy link.id (← Store.define link)
  | make key body => Store.make key (body.build I)

def buildEach (I : Interpretation Nat ρ) : List Schema → StateM (Store ρ) (List ρ)
  | [] => return []
  | s :: rest => do
    let r ← s.build I
    let rest ← buildEach I rest
    return r :: rest

def buildNamed (I : Interpretation Nat ρ) :
    List (String × Schema) → StateM (Store ρ) (List (String × ρ))
  | [] => return []
  | (name, s) :: rest => do
    let r ← s.build I
    let rest ← buildNamed I rest
    return (name, r) :: rest

end

end Schema

end JsonShapes
