import ApiDoc.Proofs.Document.Shape

/-!
# Merging paths

The paths of a fragment are merged path by path, method by method and field by field (`joinPaths`).
Merging two operations one after another is merging the paths that a fragment makes of both
(`joinPaths_addOperation`).
-/

namespace ApiDoc

open Value

namespace Document

/-! ## Operations of a fragment -/

/-- Fields on top of others that lie on an operation: it does not matter which are merged first. -/
theorem overlay_update {old new : List (Atom × Value)} (hold : Assoc.Distinct old)
    (hnew : ∀ e ∈ new, Assoc.IsExact e.1) (x : Option Value) :
    overlay x (.map (Assoc.update old new)) =
      overlay (some (overlay x (.map old))) (.map (Assoc.update [] new)) := by
  have hassoc : ∀ base : List (Atom × Value),
      Assoc.update base (Assoc.update [] new) = Assoc.update base new := by
    intro base
    rw [Assoc.update_update Assoc.distinct_nil hnew]
    rfl
  have hnone : Value.map (Assoc.update old new) =
      overlay (some (.map old)) (.map (Assoc.update [] new)) :=
    congrArg Value.map (hassoc old).symm
  cases x with
  | none => exact hnone
  | some v =>
    cases v with
    | object m base =>
      change Value.map (Assoc.update base (Assoc.update old new)) =
        Value.map (Assoc.update (Assoc.update base old) (Assoc.update [] new))
      rw [hassoc, Assoc.update_update hold hnew]
    | _ => exact hnone

/-- The methods of a path of a fragment, and one operation more. -/
theorem joinPath_addMethod {methods : Assoc String (List (Atom × Value))}
    (hmethods : Assoc.Every Assoc.Distinct methods) (op : Operation) (x : Option Value) :
    joinPath x (Fragment.methodsValue (Assoc.alter op.route.method
        (fun fields => Assoc.update (fields.getD []) op.fields) methods)) =
      joinPath (some (joinPath x (Fragment.methodsValue methods)))
        (Fragment.methodsValue [(op.route.method, Assoc.update [] op.fields)]) := by
  simp only [joinPath, methodsOf_object, Fragment.methodsValue, entries,
    Assoc.mergeWith_mapValues_right]
  rw [← Assoc.alter_texts]
  congr 1
  refine Assoc.mergeWith_alter (Atom.isExact_text _)
    (fun fields => Assoc.update (fields.getD []) op.fields)
    (fun y => overlay y (.map (Assoc.update [] op.fields))) (fun _ => rfl)
    hmethods.distinct.texts ?_ (methodsOf x)
  intro e he y
  obtain ⟨e', he', rfl⟩ := List.mem_map.1 he
  exact overlay_update (hmethods.values e' he') op.isExact_fields y

/-- The paths of a fragment merged into others. -/
def joinPaths (paths : List (Atom × Value))
    (new : Assoc String (Assoc String (List (Atom × Value)))) : List (Atom × Value) :=
  Assoc.mergeWith (fun x methods => joinPath x (Fragment.methodsValue methods)) paths
    (Assoc.texts new)

/-- Merging the paths of a fragment with one operation more is merging the paths, then the
operation. -/
theorem joinPaths_addOperation {new : Assoc String (Assoc String (List (Atom × Value)))}
    (hnew : Assoc.Every (Assoc.Every Assoc.Distinct) new) (op : Operation)
    (paths : List (Atom × Value)) :
    joinPaths paths (Fragment.addOperation new op) =
      joinPaths (joinPaths paths new) (Fragment.addOperation [] op) := by
  rw [Fragment.addOperation_eq, joinPaths, ← Assoc.alter_texts]
  refine Assoc.mergeWith_alter (Atom.isExact_text _)
    (fun methods => Assoc.alter op.route.method
      (fun fields => Assoc.update (fields.getD []) op.fields) (methods.getD []))
    (fun y => joinPath y (Fragment.methodsValue [(op.route.method, Assoc.update [] op.fields)]))
    (fun _ => rfl) hnew.distinct.texts ?_ paths
  intro e he y
  obtain ⟨e', he', rfl⟩ := List.mem_map.1 he
  exact joinPath_addMethod (hnew.values e' he') op y

/-- The paths of a fragment are merged into an object of objects. -/
theorem mergePaths_valueOfPaths (m : Option Mark) {paths : List (Atom × Value)}
    (hpaths : ∀ e ∈ paths, e.2.isObject = true)
    (new : Assoc String (Assoc String (List (Atom × Value)))) :
    mergePaths (.object m paths) (Fragment.valueOfPaths new) =
      ⟨.object m (joinPaths paths new), none⟩ := by
  have hobjects : ∀ e ∈ Assoc.mapValues Fragment.methodsValue (Assoc.texts new),
      e.2.isObject = true :=
    List.forall_mem_map.2 fun _ _ => rfl
  rw [Fragment.valueOfPaths, mergePaths_of_objects m none hpaths hobjects,
    Assoc.mergeWith_mapValues_right, joinPaths]

/-! ## Paths seen through a change -/

/-- A change of values that acts on the parts of objects and changes nothing new. `Q` says of which
values this is known. -/
structure ActsOnParts (Q : Value → Prop) (φ : Value → Value) : Prop where
  part : ∀ {v w}, Q v → w ∈ v.parts → Q w
  object : ∀ {m es}, Q (.object m es) → φ (.object m es) = .object m (Assoc.mapValues φ es)
  map : ∀ es, φ (.map es) = .map (Assoc.mapValues φ es)
  other : ∀ {v}, Q v → v.isObject = false → (φ v).isObject = false
  new : ∀ {v}, v.IsNew → φ v = v

variable {Q : Value → Prop} {φ : Value → Value}

/-- An operation replaces what is no object. -/
theorem overlay_of_not_isObject {v : Value} (h : v.isObject = false) (operation : Value) :
    overlay (some v) operation = operation := by
  cases v with
  | object m es => exact absurd h nofun
  | _ => rfl

/-- A change of what is there may be made before or after an operation comes in. -/
theorem ActsOnParts.overlay (h : ActsOnParts Q φ) {x : Option Value} (hx : ∀ v, x = some v → Q v)
    {fields : List (Atom × Value)} (hdistinct : Assoc.Distinct fields)
    (hnew : MarkedEntries (fun mark _ => ∀ i, mark ≠ .node i) fields) :
    overlay (x.map φ) (.map fields) = φ (overlay x (.map fields)) := by
  have hfields : φ (.map fields) = .map fields := h.new hnew.map
  cases x with
  | none => exact hfields.symm
  | some v =>
    by_cases hv : v.isObject = true
    · obtain ⟨m, old, rfl⟩ := isObject_iff.1 hv
      have hupdate : Assoc.update (Assoc.mapValues φ old) fields =
          Assoc.mapValues φ (Assoc.update old fields) := by
        rw [Assoc.update_eq_mergeWith, Assoc.update_eq_mergeWith]
        exact Assoc.mergeWith_mapValues φ hdistinct fun e he => (h.new (hnew.values e he)).symm
      change Document.overlay (some (φ (.object m old))) _ = φ (.map (Assoc.update old fields))
      rw [h.object (hx _ rfl), h.map, ← hupdate]
      rfl
    · rw [Bool.not_eq_true] at hv
      rw [overlay_of_not_isObject hv, hfields, Option.map_some]
      exact overlay_of_not_isObject (h.other (hx v rfl) hv) _

/-- A change of what is there may be made before or after methods come in. -/
theorem ActsOnParts.joinPath (h : ActsOnParts Q φ) {x : Option Value}
    (hx : ∀ v, x = some v → Q v ∧ v.isObject = true)
    {methods : Assoc String (List (Atom × Value))}
    (hmethods : Assoc.Every (fun fields => Assoc.Distinct fields ∧
      MarkedEntries (fun mark _ => ∀ i, mark ≠ .node i) fields) methods) :
    joinPath (x.map φ) (Fragment.methodsValue methods) =
      φ (joinPath x (Fragment.methodsValue methods)) := by
  -- the methods there were, with the map applied to each of them
  have hold : methodsOf (x.map φ) = Assoc.mapValues φ (methodsOf x) := by
    cases x with
    | none => rfl
    | some v =>
      obtain ⟨hQ, hobject⟩ := hx v rfl
      obtain ⟨m, old, rfl⟩ := isObject_iff.1 hobject
      rw [Option.map_some, h.object hQ]
      rfl
  have hQ : ∀ key v, Assoc.get? key (methodsOf x) = some v → Q v := by
    intro key v hv
    cases x with
    | none => exact absurd hv nofun
    | some w =>
      obtain ⟨hQ, hobject⟩ := hx w rfl
      obtain ⟨m, old, rfl⟩ := isObject_iff.1 hobject
      obtain ⟨k, hk⟩ := Assoc.mem_of_get? hv
      exact h.part hQ (snd_mem_parts hk)
  simp only [Document.joinPath, Fragment.methodsValue, entries, Assoc.mergeWith_mapValues_right,
    h.map, hold]
  congr 1
  refine Assoc.mergeWith_mapValues φ hmethods.distinct.texts fun e he => ?_
  obtain ⟨e', he', rfl⟩ := List.mem_map.1 he
  obtain ⟨hdistinct, hnew⟩ := hmethods.values e' he'
  exact h.overlay (hQ _) hdistinct hnew

/-- Paths of a fragment whose marks are none of a node that was read. -/
abbrev NewPaths (paths : Assoc String (Assoc String (List (Atom × Value)))) : Prop :=
  Fragment.PathsMarked (fun mark _ => ∀ i, mark ≠ .node i) paths

/-- Merging the paths of a fragment commutes with a change that acts on the parts of objects. -/
theorem ActsOnParts.joinPaths (h : ActsOnParts Q φ) {paths : List (Atom × Value)}
    (hpaths : ∀ e ∈ paths, Q e.2 ∧ e.2.isObject = true)
    {new : Assoc String (Assoc String (List (Atom × Value)))}
    (hnew : NewPaths new) :
    joinPaths (Assoc.mapValues φ paths) new = Assoc.mapValues φ (joinPaths paths new) := by
  refine Assoc.mergeWith_mapValues φ hnew.distinct.texts fun e he => ?_
  obtain ⟨e', he', rfl⟩ := List.mem_map.1 he
  refine h.joinPath (fun v hv => ?_) (hnew.values e' he')
  obtain ⟨k, hk⟩ := Assoc.mem_of_get? hv
  exact hpaths _ hk

/-! ## Fields of routes -/

/-- What a document or a fragment has for a route under a key. -/
def fieldAt? (route : Route) (key : String) (document : Value) : Option Value :=
  (((document.field? "paths").bind (Value.field? route.uri)).bind (Value.field? route.method)).bind
    (Value.field? key)

/-- Whether paths are an object that takes methods of a path. -/
def hasRoom (uri : String) : Value → Bool
  | .object _ paths => opens (Assoc.get? (.text uri) paths)
  | _ => false

/-- Whether a document takes methods of a path. -/
def takes (document : Value) (uri : String) : Bool := (document.field? "paths").any (hasRoom uri)

variable {entries : List (Atom × Value)} {route : Route} {key uri : String} {v : Value}

/-- A document takes the paths that there is room for among its own. -/
theorem takes_eq_hasRoom {m : Option Mark} {p : Value}
    (h : Assoc.get? (.text "paths") entries = some p) :
    takes (.object m entries) = (hasRoom · p) := by
  funext uri
  rw [takes, field?, h, Option.any_some]

/-- A value has a field just if it is an object that has it. -/
theorem field?_eq_some_iff {u : Value} : u.field? key = some v ↔
    ∃ m es, u = .object m es ∧ Assoc.get? (.text key) es = some v := by
  constructor
  · intro h
    cases u with
    | object m es => exact ⟨m, es, rfl, h⟩
    | _ => cases h
  · rintro ⟨m, es, rfl, h⟩
    exact h

/-- A document has a field for a route just if there are objects all the way to it. -/
theorem fieldAt?_eq_some_iff (m : Option Mark) :
    fieldAt? route key (.object m entries) = some v ↔
      ∃ m₁ paths m₂ methods m₃ fields,
        Assoc.get? (.text "paths") entries = some (.object m₁ paths) ∧
        Assoc.get? (.text route.uri) paths = some (.object m₂ methods) ∧
        Assoc.get? (.text route.method) methods = some (.object m₃ fields) ∧
        Assoc.get? (.text key) fields = some v := by
  simp only [fieldAt?, Option.bind_eq_some_iff, field?_eq_some_iff]
  constructor
  · rintro ⟨_, ⟨_, ⟨_, ⟨_, _, heq, hpaths⟩, m₁, paths, rfl, hmethods⟩, m₂, methods, rfl, hop⟩, m₃,
      fields, rfl, hv⟩
    cases heq
    exact ⟨m₁, paths, m₂, methods, m₃, fields, hpaths, hmethods, hop, hv⟩
  · rintro ⟨m₁, paths, m₂, methods, m₃, fields, hpaths, hmethods, hop, hv⟩
    exact ⟨_, ⟨_, ⟨_, ⟨_, _, rfl, hpaths⟩, m₁, paths, rfl, hmethods⟩, m₂, methods, rfl, hop⟩, m₃,
      fields, rfl, hv⟩

/-- A document that takes a path has paths that are an object. -/
theorem takes_object {m : Option Mark} (h : takes (.object m entries) uri = true) :
    ∃ m₁ paths, Assoc.get? (.text "paths") entries = some (.object m₁ paths) ∧
      opens (Assoc.get? (.text uri) paths) = true := by
  rw [takes, Option.any_eq_true] at h
  obtain ⟨p, hget, hroom⟩ := h
  cases p with
  | object m₁ paths => exact ⟨m₁, paths, hget, hroom⟩
  | _ => cases hroom

end Document

end ApiDoc
