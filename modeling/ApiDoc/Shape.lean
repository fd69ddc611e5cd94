import ApiDoc.Comment.Basic
import ApiDoc.Text.Utf8
import ApiDoc.Value.Basic

/-!
# Reading models from values

A tag, a type expression or a block may be given as a value. What does not fit is reported as a
list of issues, each with the path to the place and the kind of thing that was wanted there. All
parts are looked at, so one value may have several issues; they come in the order of the fields.
Keys that no field has are passed over.
-/

namespace ApiDoc

/-- What was wanted in a place. -/
inductive IssueKind where
  | text
  /-- A text in place of bytes that are none. -/
  | encoding
  | list
  | object
  | model
  | path
  | present
  deriving DecidableEq, Repr

/-- A place that does not fit. -/
structure Issue where
  place : List Atom
  kind : IssueKind

/-- A model, or what does not fit. -/
abbrev Checked (α : Type) := Except (List Issue) α

namespace Checked

variable {α β : Type}

/-- Two parts; the issues of the first come first. -/
def both : Checked α → Checked β → Checked (α × β)
  | .ok a, .ok b => .ok (a, b)
  | .error xs, .ok _ => .error xs
  | .ok _, .error ys => .error ys
  | .error xs, .error ys => .error (xs ++ ys)

/-- A single issue. -/
def issue (place : List Atom) (kind : IssueKind) : Checked α := .error [⟨place, kind⟩]

/-- A text, or the bytes of one. -/
def text (place : List Atom) : Value → Checked String
  | .text s => .ok s
  | .atom (.bytes bs) =>
    match Text.decodeStrict? (ByteArray.mk bs.toArray) with
    | some s => .ok (String.ofList s)
    | none => issue place .encoding
  | _ => issue place .text

/-- The items of a list, each read in its place. -/
def itemsFrom (read : List Atom → Value → Checked α) (place : List Atom) :
    Nat → List Value → Checked (List α)
  | _, [] => .ok []
  | i, v :: rest =>
    (both (read (place ++ [.int i]) v) (itemsFrom read place (i + 1) rest)).map
      fun (a, as) => a :: as

/-- A list, or a set. -/
def list (read : List Atom → Value → Checked α) (place : List Atom) : Value → Checked (List α)
  | .list _ items => itemsFrom read place 0 items
  | .set _ items => itemsFrom read place 0 (items.map .atom)
  | _ => issue place .list

/-- The entries of an object that stands for a model. -/
def model (place : List Atom) : Value → Checked (List (Atom × Value))
  | .object _ entries => .ok entries
  | _ => issue place .model

/-- A field that may be absent, or empty. -/
def optional (entries : List (Atom × Value)) (key : String) (place : List Atom)
    (read : List Atom → Value → Checked α) : Checked (Option α) :=
  match Assoc.get? (.text key) entries with
  | none => .ok none
  | some v => if v.isNull then .ok none else (read (place ++ [.text key]) v).map some

/-- A field that has a value when it is absent. -/
def withDefault (entries : List (Atom × Value)) (key : String) (place : List Atom)
    (read : List Atom → Value → Checked α) (default : α) : Checked α :=
  match Assoc.get? (.text key) entries with
  | none => .ok default
  | some v => read (place ++ [.text key]) v

/-- A field that has to be there. -/
def required (entries : List (Atom × Value)) (key : String) (place : List Atom)
    (read : List Atom → Value → Checked α) : Checked α :=
  match Assoc.get? (.text key) entries with
  | none => issue (place ++ [.text key]) .present
  | some v => read (place ++ [.text key]) v

end Checked

/-- A type expression. The first argument bounds the depth of the value. -/
def TypeExpr.ofValueAt : Nat → List Atom → Value → Checked TypeExpr
  | 0, place, _ => Checked.issue place .model
  | n + 1, place, v => do
    let es ← Checked.model place v
    let name := Checked.optional es "name" place Checked.text
    let container := Checked.optional es "expression" place (ofValueAt n)
    let arguments := Checked.optional es "applications" place (Checked.list (ofValueAt n))
    let members := Checked.optional es "elements" place (Checked.list (ofValueAt n))
    let (name, container, arguments, members) ←
      Checked.both name (Checked.both container (Checked.both arguments members))
    return .mk name container arguments members

/-- A type expression in a place. A value is never deeper than it is large. -/
def TypeExpr.checked (place : List Atom) (v : Value) : Checked TypeExpr :=
  TypeExpr.ofValueAt (v.size + 1) place v

/-- A tag in a place. -/
def Tag.checked (place : List Atom) (v : Value) : Checked Tag := do
  let es ← Checked.model place v
  let title := Checked.required es "title" place Checked.text
  let name := Checked.optional es "name" place Checked.text
  let description := Checked.optional es "description" place Checked.text
  let type := Checked.optional es "type" place TypeExpr.checked
  let (title, name, description, type) ←
    Checked.both title (Checked.both name (Checked.both description type))
  return { title := title, name := name, description := description, type := type }

/-- A block. -/
def Block.checked (v : Value) : Checked Block := do
  let es ← Checked.model [] v
  let description := Checked.withDefault es "description" [] Checked.text ""
  let tags := Checked.withDefault es "tags" [] (Checked.list Tag.checked) []
  let source := Checked.withDefault es "source" [] Checked.text ""
  let (description, tags, source) ← Checked.both description (Checked.both tags source)
  return { description := description, tags := tags, source := source }

mutual

/-- A type expression as a value. -/
def TypeExpr.toValue : TypeExpr → Value
  | .mk name container arguments members =>
    .record
      [("name", .textOrNull name),
        ("expression",
          match container with
          | some c => TypeExpr.toValue c
          | none => .null),
        ("applications",
          match arguments with
          | some as => .array (TypeExpr.toValues as)
          | none => .null),
        ("elements",
          match members with
          | some ms => .array (TypeExpr.toValues ms)
          | none => .null)]

/-- Type expressions as values. -/
def TypeExpr.toValues : List TypeExpr → List Value
  | [] => []
  | e :: es => TypeExpr.toValue e :: TypeExpr.toValues es

end

/-- A tag as a value. -/
def Tag.toValue (t : Tag) : Value :=
  .record [("title", .text t.title), ("name", .textOrNull t.name),
    ("description", .textOrNull t.description), ("type", t.type.elim .null TypeExpr.toValue)]

/-- A block as a value. -/
def Block.toValue (b : Block) : Value :=
  .record [("description", .text b.description), ("tags", .array (b.tags.map Tag.toValue)),
    ("source", .text b.source)]

end ApiDoc
