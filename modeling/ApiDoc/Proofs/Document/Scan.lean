import ApiDoc.Proofs.Value.Place

/-!
# The search for keys, place by place

The search keeps a list of visits that are still to be made. It reports what a walk through the
places of a document finds, place after place: `seek_eq`. A key is reported if it is on the list of
wrong keys and not right under a key `properties`, and with `allowFlags` its node is no truth value
(`isReported`).
-/

namespace ApiDoc

namespace Value

/-! ## All places -/

/-- The nodes inside a value, each with its place behind another place: a node comes before the
nodes inside it, and these come before the nodes to the right of it. -/
def placesBelow (above : List Atom) (v : Value) : List (List Atom × Value) :=
  v.keyed.attach.flatMap fun e =>
    (above ++ [e.1.1], e.1.2) :: placesBelow (above ++ [e.1.1]) e.1.2
termination_by sizeOf v
decreasing_by exact sizeOf_part_lt (mem_parts_of_mem_keyed e.2)

/-- The places below a value are those of its parts, each before what is inside it. -/
theorem placesBelow_eq (above : List Atom) (v : Value) :
    placesBelow above v = v.keyed.flatMap fun e =>
      (above ++ [e.1], e.2) :: placesBelow (above ++ [e.1]) e.2 := by
  rw [placesBelow, List.flatMap_subtype (g := fun e : Atom × Value =>
    (above ++ [e.1], e.2) :: placesBelow (above ++ [e.1]) e.2) fun _ _ => rfl,
    List.unattach_attach]

/-- The walk comes to every place below, and to no other. -/
theorem mem_placesBelow_iff {above place : List Atom} {v x : Value} :
    (place, x) ∈ placesBelow above v ↔
      ∃ key rest, place = above ++ key :: rest ∧ v.At (key :: rest) x := by
  induction v using induction generalizing above with
  | step v ih =>
    rw [placesBelow_eq]
    simp only [List.mem_flatMap, List.mem_cons, Prod.mk.injEq]
    constructor
    · rintro ⟨e, he, ⟨rfl, rfl⟩ | hbelow⟩
      · exact ⟨e.1, [], rfl, .step he (.here e.2)⟩
      · obtain ⟨key, rest, rfl, hx⟩ := (ih e.2 (mem_parts_of_mem_keyed he)).1 hbelow
        refine ⟨e.1, key :: rest, ?_, .step he hx⟩
        rw [List.append_assoc, List.singleton_append]
    · rintro ⟨key, rest, rfl, hx⟩
      obtain ⟨w, hw, hx⟩ := at_cons_iff.1 hx
      refine ⟨(key, w), hw, ?_⟩
      cases rest with
      | nil => exact .inl ⟨rfl, at_nil_iff.1 hx⟩
      | cons key' rest =>
        refine .inr ((ih w (mem_parts_of_mem_keyed hw)).2 ⟨key', rest, ?_, hx⟩)
        rw [List.append_assoc, List.singleton_append]

end Value

namespace Document

open Value

variable {wrong : List Value} {allowFlags : Bool}

/-! ## The search -/

/-- Whether the search reports the key of a node in a place. -/
def isReported (wrong : List Value) (allowFlags : Bool) (place : List Atom) (node : Value) : Bool :=
  place.getLast?.any (fun key => wrong.any (·.same (.atom key))) &&
    !(place.dropLast.getLast?.any (·.same (.text "properties"))) && !(allowFlags && isFlag node)

/-- The places whose keys the search reports, in order. -/
def reportedPlaces (wrong : List Value) (allowFlags : Bool) (above : List Atom) (v : Value) :
    List (List Atom) :=
  ((placesBelow above v).filter fun e => isReported wrong allowFlags e.1 e.2).map Prod.fst

/-- A place is reported just if there is a node whose key is. -/
theorem mem_reportedPlaces_iff {place : List Atom} {v : Value} :
    place ∈ reportedPlaces wrong allowFlags [] v ↔
      ∃ x, v.At place x ∧ isReported wrong allowFlags place x = true := by
  simp only [reportedPlaces, List.mem_map, List.mem_filter, Prod.exists, exists_and_right,
    exists_eq_right]
  refine exists_congr fun x => ?_
  rw [mem_placesBelow_iff]
  constructor
  · rintro ⟨⟨key, rest, rfl, hx⟩, hreported⟩
    exact ⟨hx, hreported⟩
  · rintro ⟨hx, hreported⟩
    cases place with
    | nil => cases hreported
    | cons key rest => exact ⟨⟨key, rest, rfl, hx⟩, hreported⟩

/-- The visits of items have their indices for keys. -/
theorem visitItems_eq_map (parent : Option Atom) (i : Nat) (items : List Value) :
    visitItems parent i items =
      (items.zipIdx i).map fun e => ⟨e.1, some (.int e.2), parent⟩ := by
  induction items generalizing i with
  | nil => rfl
  | cons v items ih => rw [visitItems, ih, List.zipIdx_cons, List.map_cons]

/-- The visits of entries have their keys. -/
theorem visitEntries_eq_map (parent : Option Atom) (entries : List (Atom × Value)) :
    visitEntries parent entries = entries.map fun e => ⟨e.2, some e.1, parent⟩ := by
  induction entries with
  | nil => rfl
  | cons e entries ih => rw [visitEntries, ih, List.map_cons]

/-- A visit leads to the values right inside its node. -/
theorem children_eq_map (v : Visit) :
    children v = v.node.keyed.map fun e => ⟨e.2, some e.1, v.key⟩ := by
  obtain ⟨node, key, parent⟩ := v
  cases node with
  | object m es => exact visitEntries_eq_map key es
  | list m items =>
    simp only [children, visitItems_eq_map, keyed, List.map_map, Function.comp_def]
  | _ => rfl

/-- Visits are made one after another, each with all that it leads to. -/
theorem seekAll_append (as bs : List Visit) :
    seekAll wrong allowFlags (as ++ bs) =
      seekAll wrong allowFlags as ++ seekAll wrong allowFlags bs := by
  induction as using seekAll.induct with
  | case1 => rw [List.nil_append, seekAll, List.nil_append]
  | case2 v rest ih =>
    rw [List.cons_append, seekAll, seekAll, ← List.append_assoc, ih, List.append_assoc]

/-- The search reports each visit before those inside it. -/
theorem seekAll_eq_flatMap (agenda : List Visit) :
    seekAll wrong allowFlags agenda = agenda.flatMap fun v =>
      report wrong allowFlags v ++ seekAll wrong allowFlags (children v) := by
  induction agenda with
  | nil => rw [seekAll, List.flatMap_nil]
  | cons v rest ih => rw [seekAll, seekAll_append, ih, List.flatMap_cons, List.append_assoc]

/-- What is reported of a visit depends on the last two keys of its place. -/
theorem report_eq (above : List Atom) (key : Atom) (node : Value) :
    report wrong allowFlags ⟨node, some key, above.getLast?⟩ =
      if isReported wrong allowFlags (above ++ [key]) node then [key] else [] := by
  simp only [report, isReported, List.getLast?_concat, List.dropLast_concat, Option.any_some]

/-- Behind a visit the search reports what the walk below the place of its node finds. -/
theorem seekAll_children (above : List Atom) (parent : Option Atom) (v : Value) :
    seekAll wrong allowFlags (children ⟨v, above.getLast?, parent⟩) =
      (reportedPlaces wrong allowFlags above v).filterMap List.getLast? := by
  induction v using induction generalizing above parent with
  | step v ih =>
    rw [children_eq_map, seekAll_eq_flatMap, List.flatMap_map, reportedPlaces, placesBelow_eq]
    simp only [List.filter_flatMap, List.map_flatMap, List.filterMap_flatMap]
    refine List.flatMap_congr fun e he => ?_
    have hbelow := ih e.2 (mem_parts_of_mem_keyed he) (above ++ [e.1]) above.getLast?
    rw [List.getLast?_concat, reportedPlaces] at hbelow
    rw [report_eq, hbelow, List.filter_cons]
    split
    · rw [List.map_cons, List.filterMap_cons, List.getLast?_concat, List.singleton_append]
    · rw [List.nil_append]

/-- The search reports the last keys of the places that the walk finds, in order. -/
theorem seek_eq (wrong : List Value) (allowFlags : Bool) (source : Value) :
    seek wrong allowFlags source =
      (reportedPlaces wrong allowFlags [] source).filterMap List.getLast? := by
  rw [seek, seekAll_eq_flatMap, List.flatMap_singleton, report, List.nil_append]
  exact seekAll_children [] none source

/-- The deprecated keys of a source are the last keys of its reported places. -/
theorem deprecatedKeys_singleton (allowFlags : Bool) (source : Value) :
    deprecatedKeys allowFlags [source] =
      (reportedPlaces wrongProperties allowFlags [] source).filterMap List.getLast? := by
  rw [deprecatedKeys, List.flatMap_singleton, seek_eq]

/-- If the search reports nothing then there is no place to report. -/
theorem reportedPlaces_eq_nil {source : Value} (h : deprecatedKeys allowFlags [source] = []) :
    reportedPlaces wrongProperties allowFlags [] source = [] := by
  rw [deprecatedKeys_singleton, List.filterMap_eq_nil_iff] at h
  refine List.eq_nil_iff_forall_not_mem.2 fun place hplace => ?_
  obtain ⟨x, -, hreported⟩ := mem_reportedPlaces_iff.1 hplace
  rw [isReported, h place hplace] at hreported
  cases hreported

end Document

end ApiDoc
