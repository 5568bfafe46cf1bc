import JsonShapes.Decoder.Check
import JsonShapes.Encoder.Transform
import JsonShapes.Proofs.Related

/-! # Runs that succeed

Without effects a check has no result, fails, or succeeds with a value. Here stands what each combinator
needs of its parts to succeed, and with which value it then does. A check succeeds only where all that it
runs succeeds, alternatives apart, so failures need not be followed; a transform has a result only where
all that it runs has one.
-/
namespace JsonShapes
set_option autoImplicit false

theorem mapM_eq_some_iff {τ α : Type} {f : τ → Option α} {xs : List τ} {ys : List α} :
    xs.mapM f = some ys ↔ List.Forall₂ (fun x y => f x = some y) xs ys := by
  induction xs generalizing ys with
  | nil =>
    rw [List.forall₂_nil_left_iff, List.mapM_nil]
    exact ⟨fun h => (Option.some.inj h).symm, fun h => congrArg some h.symm⟩
  | cons x rest ih =>
    rw [List.mapM_cons]
    constructor
    · intro h
      obtain ⟨y, hHead, h⟩ := Option.bind_eq_some_iff.mp h
      obtain ⟨ys, hRest, h⟩ := Option.bind_eq_some_iff.mp h
      cases h
      exact .cons hHead (ih.mp hRest)
    · intro h
      cases h with
      | cons hHead hRest =>
        rw [hHead, ih.mpr hRest]
        rfl

namespace Entries
variable {α β : Type}

/-- What `f` makes of every property that is there, from what was declared for it and from its value. -/
def present (values : Entries Value) (f : α → Value → β) (props : Entries α) : Entries β :=
  props.filterMap fun p => (values.get? p.1).map fun raw => (p.1, f p.2 raw)

theorem present_eq_map (values : Entries Value) (f : α → Value → β) (props : Entries α) :
    present values f props = (props.filterMap fun p =>
      (values.get? p.1).map fun raw => (p.1, p.2, raw)).map fun slot => (slot.1, f slot.2.1 slot.2.2) := by
  rw [List.map_filterMap]
  simp only [Option.map_map]
  rfl

theorem get?_present (values : Entries Value) (f : α → Value → β) (props : Entries α) (name : String) :
    (present values f props).get? name =
      (values.get? name).bind fun raw => (props.get? name).map fun a => f a raw := by
  induction props with
  | nil => cases values.get? name <;> rfl
  | cons p rest ih =>
    have hCons : present values f (p :: rest) =
        ((values.get? p.1).map fun raw => (p.1, f p.2 raw)).toList ++ present values f rest := by
      rw [present, List.filterMap_cons]
      cases values.get? p.1 <;> rfl
    by_cases hName : name = p.1
    · rw [hCons, get?_cons, if_pos hName, hName]
      cases hFound : values.get? p.1 with
      | none =>
        rw [hName, hFound] at ih
        exact ih
      | some raw => simp [get?_cons]
    · rw [hCons, get?_cons, if_neg hName, ← ih]
      cases values.get? p.1 with
      | none => rfl
      | some raw => simp [get?_cons, hName]

theorem get?_present_eq_some_iff {values : Entries Value} {f : α → Value → β} {props : Entries α} {name : String}
    {b : β} : (present values f props).get? name = some b ↔
      ∃ raw a, values.get? name = some raw ∧ props.get? name = some a ∧ f a raw = b := by
  rw [get?_present, Option.bind_eq_some_iff]
  simp only [Option.map_eq_some_iff, exists_and_left]

theorem mem_keys_present {values : Entries Value} {f : α → Value → β} {props : Entries α} {name : String} :
    name ∈ (present values f props).keys ↔ name ∈ values.keys ∧ name ∈ props.keys := by
  rw [mem_keys_iff, mem_keys_iff, mem_keys_iff, get?_present]
  cases values.get? name <;> cases props.get? name <;> simp

theorem get?_ofList_map (f : String → α → β) (entries : Entries α) (name : String) :
    (ofList (entries.map fun e => (e.1, f e.1 e.2))).get? name =
      ((ofList entries).get? name).map (f name) := by
  have hReverse := get?_map f entries.reverse name
  rw [List.map_reverse] at hReverse
  rw [get?_ofList, get?_ofList]
  exact hReverse

theorem get?_ofList_present (values : Entries Value) (f : α → Value → β) (props : Entries α)
    (name : String) : (ofList (present values f props)).get? name =
      (values.get? name).bind fun raw => ((ofList props).get? name).map fun a => f a raw := by
  have hReverse := get?_present values f props.reverse name
  rw [present, List.filterMap_reverse] at hReverse
  rw [get?_ofList, get?_ofList]
  exact hReverse

/-- Under the names of the one there are related values in the other, and there are no other names. -/
structure Corresponds (R : String → α → β → Prop) (as : Entries α) (bs : Entries β) : Prop where
  nodup : bs.keys.Nodup
  left : ∀ {name a}, as.get? name = some a → ∃ b, bs.get? name = some b ∧ R name a b
  right : ∀ {name b}, bs.get? name = some b → ∃ a, as.get? name = some a ∧ R name a b

theorem Corresponds.mem_keys_iff {R : String → α → β → Prop} {as : Entries α} {bs : Entries β}
    (h : Corresponds R as bs) {name : String} : name ∈ bs.keys ↔ name ∈ as.keys := by
  rw [Entries.mem_keys_iff, Entries.mem_keys_iff]
  constructor
  · rintro ⟨b, hb⟩
    obtain ⟨a, ha, _⟩ := h.right hb
    exact ⟨a, ha⟩
  · rintro ⟨a, ha⟩
    obtain ⟨b, hb, _⟩ := h.left ha
    exact ⟨b, hb⟩

theorem Corresponds.of_map {γ : Type} {R : β → γ → Prop} {f : String → α → β} {as : Entries α}
    {fields : Entries γ} (h : Related R (as.map fun e => (e.1, f e.1 e.2)) fields) :
    Corresponds (fun name a => R (f name a)) (ofList as) (ofList fields) where
  nodup := nodup_keys_ofList fields
  left ha := h.ofList.get?_left (by rw [get?_ofList_map, ha]; rfl)
  right hb := by
    obtain ⟨r, hr, hR⟩ := h.ofList.get?_right hb
    rw [get?_ofList_map] at hr
    obtain ⟨a, ha, rfl⟩ := Option.map_eq_some_iff.mp hr
    exact ⟨a, ha, hR⟩

theorem Corresponds.of_present {γ : Type} {R : β → γ → Prop} {values : Entries Value}
    {f : α → Value → β} {props : Entries α} {fields : Entries γ}
    (h : Related R (present values f props) fields) :
    Corresponds (fun _ => R) (present values f (ofList props)) (ofList fields) where
  nodup := nodup_keys_ofList fields
  left ha := h.ofList.get?_left (by rw [get?_ofList_present, ← get?_present, ha])
  right hb := by
    obtain ⟨r, hr, hR⟩ := h.ofList.get?_right hb
    rw [get?_ofList_present, ← get?_present] at hr
    exact ⟨r, hr, hR⟩

end Entries

namespace Checked
variable {ε α τ : Type}

theorem collect_eq_ok_iff {results : List (Checked ε α)} {as : List α} :
    collect results = .ok as ↔ results = as.map .ok := by
  constructor
  · intro h
    unfold collect at h
    split at h
    · rename_i hNone
      cases h
      induction results with
      | nil => rfl
      | cons r rest ih =>
        cases r with
        | ok a => exact congrArg (Except.ok a :: ·) (ih hNone)
        | error e => cases hNone
    · cases h
  · rintro rfl
    have hFailures : (as.map (Except.ok : α → Checked ε α)).filterMap failures? = [] := by
      rw [List.filterMap_map]
      exact List.filterMap_eq_nil_iff.mpr fun _ _ => rfl
    have hValues : (as.map (Except.ok : α → Checked ε α)).filterMap value? = as := by
      rw [List.filterMap_map]
      exact List.filterMap_some
    unfold collect
    rw [hFailures, hValues]

theorem both_eq_ok_iff {β : Type} {left : Checked ε α} {right : Checked ε β} {p : α × β} :
    both left right = .ok p ↔ left = .ok p.1 ∧ right = .ok p.2 := by
  obtain ⟨a, b⟩ := p
  cases left <;> cases right <;> simp [both]

theorem map_eq_ok_iff {β : Type} {result : Checked ε α} {f : α → β} {b : β} :
    result.map f = .ok b ↔ ∃ a, result = .ok a ∧ b = f a := by
  cases result with
  | error _ => simp [Except.map]
  | ok a => simp [Except.map, eq_comm]

theorem run_map_eq_ok_iff {β : Type} {run : Option (Checked ε α)} {f : α → β} {b : β} :
    (do return (← run).map f) = some (.ok b) ↔ ∃ a, run = some (.ok a) ∧ b = f a := by
  cases run with
  | none => simp
  | some result => simpa using map_eq_ok_iff

theorem run_mapFailures_eq_ok_iff {run : Option (Checked ε α)} {f : Accum ε → Accum ε} {a : α} :
    (do return mapFailures f (← run)) = some (.ok a) ↔ run = some (.ok a) := by
  match run with
  | none => simp
  | some (.error _) => simp [mapFailures]
  | some (.ok _) => simp [mapFailures]

theorem traverseIndexed_eq_ok_iff {items : List τ} {f : Nat → τ → Option (Checked ε α)} {as : List α} :
    traverseIndexed items f = some (.ok as) ↔
      items.length = as.length ∧ ∀ i x a, items[i]? = some x → as[i]? = some a → f i x = some (.ok a) := by
  rw [← forall₂_zipIdx_iff]
  constructor
  · intro h
    obtain ⟨results, hRuns, hr⟩ := Option.bind_eq_some_iff.mp h
    have hOk := collect_eq_ok_iff.mp (Option.some.inj hr)
    rw [hOk] at hRuns
    rw [mapM_eq_some_iff, List.forall₂_map_right_iff] at hRuns
    exact hRuns
  · intro h
    have hRuns := mapM_eq_some_iff.mpr (List.forall₂_map_right_iff.mpr h)
    apply Option.bind_eq_some_iff.mpr
    exact ⟨as.map .ok, hRuns, congrArg some (collect_eq_ok_iff.mpr rfl)⟩

/-- The values that stand for the successes among the results of one name are those that occur last. -/
theorem traverseKeyed_eq_ok_iff {entries : Entries τ} {f : String → τ → Option (Checked ε α)}
    {as : Entries α} : traverseKeyed entries f = some (.ok as) ↔
      ∃ fields, Entries.Related (fun r a => r = some (.ok a)) (entries.map fun e => (e.1, f e.1 e.2)) fields ∧
        as = Entries.ofList fields := by
  have hStep : ∀ (e : String × τ) (field : String × α),
      (do
        let result ← f e.1 e.2
        return result.map fun a => (e.1, a)) = some (.ok field) ↔
      e.1 = field.1 ∧ f e.1 e.2 = some (.ok field.2) := by
    rintro e ⟨name, a⟩
    match f e.1 e.2 with
    | none => simp
    | some (.error _) => simp [Except.map]
    | some (.ok b) => simp [Except.map]
  have hEach : ∀ fields : Entries α,
      Entries.Related (fun r a => r = some (.ok a)) (entries.map fun e => (e.1, f e.1 e.2)) fields ↔
        entries.mapM (fun e => do
          let result ← f e.1 e.2
          return result.map fun a => (e.1, a)) = some (fields.map .ok) := by
    intro fields
    rw [mapM_eq_some_iff, List.forall₂_map_right_iff, Entries.Related, List.forall₂_map_left_iff]
    exact iff_of_eq (congrArg (List.Forall₂ · entries fields)
      (funext₂ fun e field => propext (hStep e field).symm))
  constructor
  · intro h
    obtain ⟨results, hRuns, hr⟩ := Option.bind_eq_some_iff.mp h
    cases hFields : collect results with
    | error e =>
      rw [hFields] at hr
      cases hr
    | ok fields =>
      rw [hFields] at hr
      cases hr
      rw [collect_eq_ok_iff.mp hFields] at hRuns
      exact ⟨fields, (hEach fields).mpr hRuns, rfl⟩
  · rintro ⟨fields, hFields, rfl⟩
    apply Option.bind_eq_some_iff.mpr
    refine ⟨fields.map .ok, (hEach fields).mp hFields, ?_⟩
    rw [collect_eq_ok_iff.mpr rfl]
    rfl

end Checked

namespace Check
variable {v w : Value} {check left right : Check Option}

theorem within_eq_ok_iff {locate : Failures String → Failure String} {run : Option (Decoded Value)} :
    (do return Decoded.within locate (← run)) = some (.ok w) ↔ run = some (.ok w) :=
  Checked.run_mapFailures_eq_ok_iff

theorem lazy_eq_ok_iff {id : String} : lazy id check v = some (.ok w) ↔ check v = some (.ok w) :=
  within_eq_ok_iff

theorem mapFailures_eq_ok_iff {f : Value → Failures String → Failures String} :
    mapFailures check f v = some (.ok w) ↔ check v = some (.ok w) :=
  Checked.run_mapFailures_eq_ok_iff

theorem choose_eq_ok_iff {p : Prop} [Decidable p] {a : Value} {expected : String} :
    (if p then .ok a else Decoded.reject v expected : Decoded Value) = .ok w ↔ p ∧ w = a := by
  by_cases hp : p
  · rw [if_pos hp, Except.ok.injEq, and_iff_right hp]
    exact eq_comm
  · rw [if_neg hp]
    exact ⟨fun h => (nomatch h), fun h => absurd h.1 hp⟩

theorem kind_eq_ok_iff {k : Kind} : (kind k v : Option (Decoded Value)) = some (.ok w) ↔
    v.kind = k ∧ w = v := Option.some_inj.trans choose_eq_ok_iff

theorem literal_eq_ok_iff {values : List Value} :
    (literal values v : Option (Decoded Value)) = some (.ok w) ↔ values.contains v = true ∧ w = v :=
  Option.some_inj.trans choose_eq_ok_iff

theorem float_eq_ok_iff : (float v : Option (Decoded Value)) = some (.ok w) ↔
    ∃ x, v.toFloat? = some x ∧ w = .ofFloat x := by
  unfold float
  cases v.toFloat? with
  | none => simp [Decoded.reject]
  | some x => simp [eq_comm]

/-- The predicate may look at the input and at what it was decoded to. -/
theorem andThen_choose_eq_ok_iff {holds : Value → Value → Bool} {expected : String} :
    andThen check (fun v w => if holds v w then .ok w else Decoded.reject w expected) v = some (.ok w) ↔
      check v = some (.ok w) ∧ holds v w = true := by
  constructor
  · intro h
    obtain ⟨result, hRun, h⟩ := Option.bind_eq_some_iff.mp h
    cases result with
    | error e => cases h
    | ok a =>
      obtain ⟨hHolds, rfl⟩ := choose_eq_ok_iff.mp (Option.some.inj h)
      exact ⟨hRun, hHolds⟩
  · rintro ⟨hRun, hHolds⟩
    apply Option.bind_eq_some_iff.mpr
    exact ⟨.ok w, hRun, congrArg some (choose_eq_ok_iff.mpr ⟨hHolds, rfl⟩)⟩

theorem nullable_eq_ok_iff : nullable check v = some (.ok w) ↔
    (v = .null ∧ w = .null) ∨ (v ≠ .null ∧ check v = some (.ok w)) := by
  cases v with
  | null => simp [nullable, eq_comm]
  | _ =>
    constructor
    · intro h
      obtain ⟨result, hRun, h⟩ := Option.bind_eq_some_iff.mp h
      cases result with
      | error e => cases h
      | ok a =>
        cases h
        exact .inr ⟨by simp, hRun⟩
    · rintro (⟨hNull, _⟩ | ⟨_, hRun⟩)
      · cases hNull
      · exact Option.bind_eq_some_iff.mpr ⟨.ok w, hRun, rfl⟩

theorem fields_eq_ok_iff {τ : Type} {entries : Entries τ} {f : String → τ → Option (Decoded Value)} :
    (do return (← Checked.traverseKeyed entries f).map Value.obj) = some (.ok w) ↔
      ∃ fields, Entries.Related (fun r a => r = some (.ok a)) (entries.map fun e => (e.1, f e.1 e.2)) fields ∧
        w = .obj (Entries.ofList fields) := by
  rw [Checked.run_map_eq_ok_iff]
  constructor
  · rintro ⟨_, hFields, rfl⟩
    obtain ⟨fields, hRelated, rfl⟩ := Checked.traverseKeyed_eq_ok_iff.mp hFields
    exact ⟨fields, hRelated, rfl⟩
  · rintro ⟨fields, hRelated, rfl⟩
    exact ⟨_, Checked.traverseKeyed_eq_ok_iff.mpr ⟨fields, hRelated, rfl⟩, rfl⟩

theorem object_eq_ok_iff {props : Entries (Check Option)} : object props v = some (.ok w) ↔
    ∃ entries fields, v = .obj entries ∧ Entries.Related (fun r a => r = some (.ok a))
      (props.map fun p => (p.1, p.2 ((Entries.get? entries p.1).getD .null))) fields ∧
      w = .obj (Entries.ofList fields) := by
  cases v with
  | obj entries =>
    apply Iff.trans fields_eq_ok_iff
    simp only [Entries.Related, List.forall₂_map_left_iff, within_eq_ok_iff, Value.obj.injEq,
      exists_and_left, exists_eq_left']
  | _ =>
    constructor
    · intro h
      cases h
    · rintro ⟨_, _, h, _⟩
      cases h

theorem partialObject_eq_ok_iff {props : Entries (Check Option)} :
    partialObject props v = some (.ok w) ↔
      ∃ entries fields, v = .obj entries ∧ Entries.Related (fun r a => r = some (.ok a))
        (Entries.present entries nullable props) fields ∧ w = .obj (Entries.ofList fields) := by
  cases v with
  | obj entries =>
    apply Iff.trans fields_eq_ok_iff
    simp only [Value.obj.injEq, exists_and_left, exists_eq_left']
    apply exists_congr
    intro fields
    apply and_congr_left
    intro _
    rw [Entries.present_eq_map, Entries.Related, Entries.Related, List.forall₂_map_left_iff,
      List.forall₂_map_left_iff]
    suffices hEach : ∀ (slot : String × Check Option × Value) (field : String × Value), _ ↔ _ from
      ⟨List.Forall₂.imp fun slot field => (hEach slot field).mp,
        List.Forall₂.imp fun slot field => (hEach slot field).mpr⟩
    rintro ⟨name, check, raw⟩ ⟨name', a⟩
    apply and_congr_right
    intro _
    cases raw with
    | null => exact Iff.rfl
    | _ =>
      apply Iff.trans within_eq_ok_iff
      simp [nullable_eq_ok_iff]
  | _ =>
    constructor
    · intro h
      cases h
    · rintro ⟨_, _, h, _⟩
      cases h

theorem record_eq_ok_iff : record check v = some (.ok w) ↔
    ∃ entries fields, v = .obj entries ∧ Entries.Related (fun r a => r = some (.ok a))
      (entries.map fun e => (e.1, check e.2)) fields ∧ w = .obj (Entries.ofList fields) := by
  cases v with
  | obj entries =>
    apply Iff.trans fields_eq_ok_iff
    simp only [Entries.Related, List.forall₂_map_left_iff, within_eq_ok_iff, Value.obj.injEq,
      exists_and_left, exists_eq_left']
  | _ =>
    constructor
    · intro h
      cases h
    · rintro ⟨_, _, h, _⟩
      cases h

/-! What is found under each name, be it that names repeat in the declarations. -/

theorem object_corresponds {props : Entries (Check Option)} {entries fields : Entries Value}
    (h : object props (.obj entries) = some (.ok (.obj fields))) :
    Entries.Corresponds (fun name check a => check ((entries.get? name).getD .null) = some (.ok a))
      (Entries.ofList props) fields := by
  obtain ⟨_, decoded, hEntries, hDecoded, hFields⟩ := Iff.mp object_eq_ok_iff h
  cases hEntries
  cases hFields
  exact .of_map (f := fun name (check : Check Option) => check ((entries.get? name).getD .null))
    hDecoded

theorem partialObject_corresponds {props : Entries (Check Option)} {entries fields : Entries Value}
    (h : partialObject props (.obj entries) = some (.ok (.obj fields))) :
    Entries.Corresponds (fun _ r a => r = some (.ok a))
      (Entries.present entries nullable (Entries.ofList props)) fields := by
  obtain ⟨_, decoded, hEntries, hDecoded, hFields⟩ := Iff.mp partialObject_eq_ok_iff h
  cases hEntries
  cases hFields
  exact .of_present hDecoded

/-- A property that was decoded has a raw value, and the last declaration of it was run on that. -/
theorem partialObject_origin {props : Entries (Check Option)} {entries fields : Entries Value}
    (h : partialObject props (.obj entries) = some (.ok (.obj fields))) {name : String} {w : Value}
    (hw : fields.get? name = some w) :
    ∃ raw, entries.get? name = some raw ∧
      ∀ c, (Entries.ofList props).get? name = some c → nullable c raw = some (.ok w) := by
  obtain ⟨_, hPresent, hRun⟩ := (partialObject_corresponds h).right hw
  obtain ⟨raw, c, hRaw, hc, rfl⟩ := Entries.get?_present_eq_some_iff.mp hPresent
  refine ⟨raw, hRaw, fun c' hc' => ?_⟩
  cases hc.symm.trans hc'
  exact hRun

/-- An object is decoded where every declaration decodes what it is given, whichever of them lasts. -/
theorem object_accepts_iff {props : Entries (Check Option)} {entries : Entries Value} :
    (∃ fields, object props (.obj entries) = some (.ok (.obj fields))) ↔
      ∀ e ∈ props, ∃ a, e.2 ((entries.get? e.1).getD .null) = some (.ok a) := by
  constructor
  · rintro ⟨_, h⟩ e he
    obtain ⟨_, _, hEntries, hEach, _⟩ := Iff.mp object_eq_ok_iff h
    cases hEntries
    obtain ⟨a, _, _, ha⟩ := forall₂_mem_left hEach (List.mem_map_of_mem he)
    exact ⟨a.2, ha⟩
  · intro h
    obtain ⟨fields, hFields⟩ : ∃ fields, Entries.Related (fun r a => r = some (.ok a)) (props.map fun p =>
        (p.1, p.2 ((entries.get? p.1).getD .null))) fields := by
      apply Entries.exists_related
      rintro _ hMem
      obtain ⟨e, he, rfl⟩ := List.mem_map.mp hMem
      exact h e he
    exact ⟨_, Iff.mpr object_eq_ok_iff ⟨_, fields, rfl, hFields, rfl⟩⟩

theorem partialObject_accepts_iff {props : Entries (Check Option)} {entries : Entries Value} :
    (∃ fields, partialObject props (.obj entries) = some (.ok (.obj fields))) ↔
      ∀ e ∈ props, ∀ raw, entries.get? e.1 = some raw → ∃ a, nullable e.2 raw = some (.ok a) := by
  constructor
  · rintro ⟨_, h⟩ e he raw hRaw
    obtain ⟨_, _, hEntries, hEach, _⟩ := Iff.mp partialObject_eq_ok_iff h
    cases hEntries
    have hPresent : (e.1, nullable e.2 raw) ∈ Entries.present entries nullable props :=
      List.mem_filterMap.mpr ⟨e, he, congrArg (Option.map _) hRaw⟩
    obtain ⟨a, _, _, ha⟩ := forall₂_mem_left hEach hPresent
    exact ⟨a.2, ha⟩
  · intro h
    obtain ⟨fields, hFields⟩ : ∃ fields, Entries.Related (fun r a => r = some (.ok a))
        (Entries.present entries nullable props) fields := by
      apply Entries.exists_related
      rintro _ hMem
      obtain ⟨e, he, hPresent⟩ := List.mem_filterMap.mp hMem
      obtain ⟨raw, hRaw, rfl⟩ := Option.map_eq_some_iff.mp hPresent
      exact h e he raw hRaw
    exact ⟨_, Iff.mpr partialObject_eq_ok_iff ⟨_, fields, rfl, hFields, rfl⟩⟩

theorem record_corresponds {entries fields : Entries Value} (hKeys : entries.keys.Nodup)
    (h : record check (.obj entries) = some (.ok (.obj fields))) :
    Entries.Corresponds (fun _ raw a => check raw = some (.ok a)) entries fields := by
  obtain ⟨_, decoded, hEntries, hDecoded, hFields⟩ := Iff.mp record_eq_ok_iff h
  cases hEntries
  cases hFields
  have hOfList := Entries.Corresponds.of_map (f := fun _ => check) hDecoded
  rwa [Entries.ofList_of_nodup hKeys] at hOfList

theorem array_eq_ok_iff : array check v = some (.ok w) ↔
    ∃ items decoded, v = .arr items ∧ List.Forall₂ (fun item a => check item = some (.ok a)) items decoded ∧
      w = .arr decoded := by
  cases v with
  | arr items =>
    apply Iff.trans Checked.run_map_eq_ok_iff
    simp only [Checked.traverseIndexed_eq_ok_iff, within_eq_ok_iff, Value.arr.injEq, exists_and_left,
      exists_eq_left']
    apply exists_congr
    intro decoded
    apply and_congr_left
    intro _
    exact forall₂_getElem?_iff.symm
  | _ =>
    constructor
    · intro h
      cases h
    · rintro ⟨_, _, h, _⟩
      cases h

theorem extras_eq_ok_iff {arity : Nat} {items dropped : List Value} :
    extras arity items = .ok dropped ↔ items.length ≤ arity ∧ dropped = [] := by
  rw [extras, Checked.collect_eq_ok_iff]
  by_cases hLength : items.length ≤ arity
  · rw [List.drop_of_length_le hLength]
    simp [hLength, eq_comm]
  · have hMore := List.drop_eq_getElem_cons (Nat.lt_of_not_le hLength)
    constructor
    · intro h
      rw [hMore] at h
      cases dropped <;> cases h
    · intro h
      exact absurd h.1 hLength

theorem tuple_eq_ok_iff {slots : List (Check Option)} : tuple slots v = some (.ok w) ↔
    ∃ items decoded, v = .arr items ∧ items.length ≤ slots.length ∧ slots.length = decoded.length ∧
      (∀ (i : Nat) slot a, slots[i]? = some slot → decoded[i]? = some a →
        slot (items[i]?.getD .null) = some (.ok a)) ∧ w = .arr decoded := by
  cases v with
  | arr items =>
    have hSlots : ∀ decoded, Checked.traverseIndexed slots (fun i check => do
        return Decoded.within (.index i .required) (← check (items[i]?.getD .null))) = some (.ok decoded) ↔
          slots.length = decoded.length ∧ ∀ (i : Nat) slot a, slots[i]? = some slot →
            decoded[i]? = some a → slot (items[i]?.getD .null) = some (.ok a) := by
      intro decoded
      simp only [Checked.traverseIndexed_eq_ok_iff, within_eq_ok_iff]
    constructor
    · intro h
      obtain ⟨values, hValues, h⟩ := Option.bind_eq_some_iff.mp h
      obtain ⟨both, hBoth, rfl⟩ := Checked.map_eq_ok_iff.mp (Option.some.inj h)
      obtain ⟨rfl, hExtras⟩ := Checked.both_eq_ok_iff.mp hBoth
      obtain ⟨hLength, hAt⟩ := (hSlots both.1).mp hValues
      exact ⟨items, both.1, rfl, (extras_eq_ok_iff.mp hExtras).1, hLength, hAt, rfl⟩
    · rintro ⟨_, decoded, hItems, hExtras, hLength, hAt, rfl⟩
      cases hItems
      apply Option.bind_eq_some_iff.mpr
      refine ⟨.ok decoded, (hSlots decoded).mpr ⟨hLength, hAt⟩, ?_⟩
      rw [extras_eq_ok_iff.mpr ⟨hExtras, rfl⟩]
      rfl
  | _ => exact iff_of_false (fun h => nomatch h) fun h => nomatch h

theorem firstOf_eq_ok_iff {members : List (Check Option)} {start : Nat} :
    firstOf v start members = some (.ok w) ↔ ∃ before member after,
      members = before ++ member :: after ∧ (∀ earlier ∈ before, ∃ e, earlier v = some (.error e)) ∧
        member v = some (.ok w) := by
  induction members generalizing start with
  | nil => simp [firstOf]
  | cons first rest ih =>
    constructor
    · intro h
      obtain ⟨result, hFirst, h⟩ := Option.bind_eq_some_iff.mp h
      cases result with
      | ok a =>
        cases h
        exact ⟨[], first, rest, rfl, List.forall_mem_nil _, hFirst⟩
      | error e =>
        obtain ⟨others, hOthers, h⟩ := Option.bind_eq_some_iff.mp h
        cases others with
        | error es => cases h
        | ok a =>
          cases h
          obtain ⟨before, member, after, rfl, hBefore, hMember⟩ := ih.mp hOthers
          exact ⟨first :: before, member, after, rfl,
            List.forall_mem_cons.mpr ⟨⟨e, hFirst⟩, hBefore⟩, hMember⟩
    · rintro ⟨before, member, after, hMembers, hBefore, hMember⟩
      cases before with
      | nil =>
        cases hMembers
        rw [firstOf, hMember]
        rfl
      | cons _ before =>
        cases hMembers
        obtain ⟨⟨e, hFirst⟩, hBefore⟩ := List.forall_mem_cons.mp hBefore
        refine Option.bind_eq_some_iff.mpr ⟨.error e, hFirst, ?_⟩
        apply Option.bind_eq_some_iff.mpr
        exact ⟨.ok w, ih.mpr ⟨before, member, after, rfl, hBefore, hMember⟩, rfl⟩

/-- The first member that does not reject the value. -/
theorem union_eq_ok_iff {members : List (Check Option)} : union members v = some (.ok w) ↔
    ∃ before member after, members = before ++ member :: after ∧
      (∀ earlier ∈ before, ∃ e, earlier v = some (.error e)) ∧ member v = some (.ok w) := by
  rw [← firstOf_eq_ok_iff]
  constructor
  · intro h
    obtain ⟨result, hFirst, h⟩ := Option.bind_eq_some_iff.mp h
    match result with
    | .ok a =>
      cases h
      exact hFirst
    | .error [] => cases h
    | .error (_ :: _) => cases h
  · intro h
    exact Option.bind_eq_some_iff.mpr ⟨.ok w, h, rfl⟩

theorem inter_eq_ok_iff : inter left right v = some (.ok w) ↔
    ∃ a b, left v = some (.ok a) ∧ right v = some (.ok b) ∧ w = a.merge b := by
  constructor
  · intro h
    obtain ⟨l, hLeft, h⟩ := Option.bind_eq_some_iff.mp h
    obtain ⟨r, hRight, h⟩ := Option.bind_eq_some_iff.mp h
    match l, r with
    | .ok a, .ok b =>
      cases h
      exact ⟨a, b, hLeft, hRight, rfl⟩
    | .ok _, .error _ => cases h
    | .error _, .ok _ => cases h
    | .error _, .error _ => cases h
  · rintro ⟨a, b, hLeft, hRight, rfl⟩
    rw [inter, hLeft, hRight]
    rfl

theorem tagged_eq_ok_iff {tag : String} {members : Entries (Check Option)} :
    tagged tag members v = some (.ok w) ↔ ∃ name member, v.get? tag = some (.str name) ∧
      (Entries.ofList members).get? name = some member ∧ member v = some (.ok w) := by
  cases v with
  | obj entries =>
    constructor
    · intro h
      simp only [tagged] at h
      split at h
      · rename_i member hMember
        obtain ⟨name, hName, hMember⟩ := Option.bind_eq_some_iff.mp hMember
        refine ⟨name, member, ?_, hMember, h⟩
        cases hFound : Entries.get? entries tag with
        | none =>
          rw [hFound] at hName
          cases hName
        | some raw =>
          rw [hFound] at hName
          cases raw <;> cases hName
          exact hFound
      · cases h
    · rintro ⟨name, member, hName, hMember, hRun⟩
      have hFound : Entries.get? entries tag = some (.str name) := hName
      simp only [tagged, hFound, Option.getD_some, Value.string?, Option.bind_some, hMember]
      exact hRun
  | _ => exact iff_of_false (fun h => nomatch h) fun h => nomatch h

end Check

namespace Transform
variable {v w : Value} {transform left right : Transform Option}

theorem nullable_eq_some_iff : nullable transform v = some w ↔
    (v = .null ∧ w = .null) ∨ (v ≠ .null ∧ transform v = some w) := by
  cases v with
  | null => simp [nullable, eq_comm]
  | _ => simp [nullable]

theorem fields_eq_some_iff {τ : Type} {slots : List τ} {name : τ → String} {f : τ → Option Value} :
    (do
      let fields ← slots.mapM fun slot => do
        let w ← f slot
        return (name slot, w)
      return .obj (Entries.ofList fields)) = some w ↔
      ∃ fields, Entries.Related (fun r a => r = some a) (slots.map fun slot => (name slot, f slot)) fields ∧
        w = .obj (Entries.ofList fields) := by
  have hEach : ∀ fields : Entries Value,
      slots.mapM (fun slot => do
        let w ← f slot
        return (name slot, w)) = some fields ↔
      Entries.Related (fun r a => r = some a) (slots.map fun slot => (name slot, f slot)) fields := by
    intro fields
    rw [mapM_eq_some_iff, Entries.Related, List.forall₂_map_left_iff]
    suffices hEach : ∀ (slot : τ) (field : String × Value), _ ↔ _ from
      ⟨List.Forall₂.imp fun slot field => (hEach slot field).mp,
        List.Forall₂.imp fun slot field => (hEach slot field).mpr⟩
    rintro slot ⟨k, a⟩
    cases f slot <;> simp
  constructor
  · intro h
    obtain ⟨fields, hFields, h⟩ := Option.bind_eq_some_iff.mp h
    exact ⟨fields, (hEach fields).mp hFields, (Option.some.inj h).symm⟩
  · rintro ⟨fields, hFields, rfl⟩
    exact Option.bind_eq_some_iff.mpr ⟨fields, (hEach fields).mpr hFields, rfl⟩

theorem object_eq_some_iff {props : Entries (Transform Option)} : object props v = some w ↔
    ∃ fields, Entries.Related (fun r a => r = some a)
      (props.map fun p => (p.1, p.2 ((Entries.get? v.entries p.1).getD .null))) fields ∧
      w = .obj (Entries.ofList fields) :=
  fields_eq_some_iff

theorem partialObject_eq_some_iff {props : Entries (Transform Option)} :
    partialObject props v = some w ↔ ∃ fields, Entries.Related (fun r a => r = some a)
      (Entries.present v.entries nullable props) fields ∧ w = .obj (Entries.ofList fields) := by
  rw [Entries.present_eq_map, ← fields_eq_some_iff]
  apply iff_of_eq
  dsimp only [partialObject]
  congr 3
  funext ⟨name, transform, raw⟩
  cases raw <;> rfl

theorem record_eq_some_iff : record transform v = some w ↔
    ∃ fields, Entries.Related (fun r a => r = some a) (v.entries.map fun e => (e.1, transform e.2)) fields ∧
      w = .obj (Entries.ofList fields) :=
  fields_eq_some_iff

theorem object_corresponds {props : Entries (Transform Option)} {entries : Entries Value}
    (h : object props (.obj entries) = some w) : ∃ fields : Entries Value, w = .obj fields ∧
      Entries.Corresponds (fun name transform a => transform ((entries.get? name).getD .null) = some a)
        (Entries.ofList props) fields := by
  obtain ⟨encoded, hEncoded, rfl⟩ := Iff.mp object_eq_some_iff h
  have hOfList := Entries.Corresponds.of_map
    (f := fun name (transform : Transform Option) => transform ((entries.get? name).getD .null)) hEncoded
  exact ⟨_, rfl, hOfList⟩

theorem partialObject_corresponds {props : Entries (Transform Option)} {entries : Entries Value}
    (h : partialObject props (.obj entries) = some w) : ∃ fields : Entries Value, w = .obj fields ∧
      Entries.Corresponds (fun _ r a => r = some a)
        (Entries.present entries nullable (Entries.ofList props)) fields := by
  obtain ⟨encoded, hEncoded, rfl⟩ := Iff.mp partialObject_eq_some_iff h
  exact ⟨_, rfl, .of_present hEncoded⟩

theorem record_corresponds {entries : Entries Value} (hKeys : entries.keys.Nodup)
    (h : record transform (.obj entries) = some w) : ∃ fields : Entries Value, w = .obj fields ∧
      Entries.Corresponds (fun _ raw a => transform raw = some a) entries fields := by
  obtain ⟨encoded, hEncoded, rfl⟩ := Iff.mp record_eq_some_iff h
  have hOfList := Entries.Corresponds.of_map (f := fun _ => transform) hEncoded
  rw [Value.entries, Entries.ofList_of_nodup hKeys] at hOfList
  exact ⟨_, rfl, hOfList⟩

theorem items_eq_some_iff {τ : Type} {items : List τ} {f : τ → Option Value} :
    (do return .arr (← items.mapM f)) = some w ↔
      ∃ encoded, List.Forall₂ (fun item a => f item = some a) items encoded ∧ w = .arr encoded := by
  constructor
  · intro h
    obtain ⟨encoded, hEncoded, h⟩ := Option.bind_eq_some_iff.mp h
    exact ⟨encoded, mapM_eq_some_iff.mp hEncoded, (Option.some.inj h).symm⟩
  · rintro ⟨encoded, hEncoded, rfl⟩
    exact Option.bind_eq_some_iff.mpr ⟨encoded, mapM_eq_some_iff.mpr hEncoded, rfl⟩

theorem array_eq_some_iff : array transform v = some w ↔
    ∃ encoded, List.Forall₂ (fun item a => transform item = some a) v.items encoded ∧ w = .arr encoded :=
  items_eq_some_iff

theorem tuple_eq_some_iff {slots : List (Transform Option)} : tuple slots v = some w ↔
    ∃ encoded, List.Forall₂ (fun (p : Value × Transform Option) a => p.2 p.1 = some a)
      (v.items.zip slots) encoded ∧ w = .arr encoded :=
  items_eq_some_iff

theorem inter_eq_some_iff : inter left right v = some w ↔
    ∃ a b, left v = some a ∧ right v = some b ∧ w = a.merge b := by
  constructor
  · intro h
    obtain ⟨a, hLeft, h⟩ := Option.bind_eq_some_iff.mp h
    obtain ⟨b, hRight, h⟩ := Option.bind_eq_some_iff.mp h
    exact ⟨a, b, hLeft, hRight, (Option.some.inj h).symm⟩
  · rintro ⟨a, b, hLeft, hRight, rfl⟩
    rw [inter, hLeft, hRight]
    rfl

end Transform
end JsonShapes
