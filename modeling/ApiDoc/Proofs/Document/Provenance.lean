import ApiDoc.Proofs.Document.Skipping
import ApiDoc.Proofs.Value.Place

/-!
# Where the nodes of a document come from

Every node of a document has been in its place from the start, or a block has brought it: then its
place is one of the fragment of the block, below a place where a section stands
(`runBlocks_origin`). A section stands in its own place and in all others where the same object is.
-/

namespace ApiDoc

open Value

namespace Document

/-! ## Nodes in the places of others -/

/-- A value all of whose nodes, behind a place, are akin to nodes that are given for their
places. -/
def Within (given : List Atom → Value → Prop) (above : List Atom) (v : Value) : Prop :=
  ∀ place x, v.At place x → ∃ z, given (above ++ place) z ∧ Akin z x

section Within

variable {given given' : List Atom → Value → Prop} {above : List Atom} {v : Value}

/-- Nodes that are given themselves are akin to given ones. -/
theorem within_of_at (h : ∀ place x, v.At place x → given (above ++ place) x) :
    Within given above v :=
  fun place x hx => ⟨x, h place x hx, .refl x⟩

/-- The value itself is akin to a node that is given for its place. -/
theorem Within.root (h : Within given above v) : ∃ z, given above z ∧ Akin z v := by
  obtain ⟨z, hz, hakin⟩ := h [] v (.here v)
  rw [List.append_nil] at hz
  exact ⟨z, hz, hakin⟩

/-- What is inside such a value is such a value again, behind its key. -/
theorem Within.keyed (h : Within given above v) :
    ∀ e ∈ v.keyed, Within given (above ++ [e.1]) e.2 := by
  intro e he place x hx
  obtain ⟨z, hz, hakin⟩ := h (e.1 :: place) x (.step he hx)
  rw [List.append_cons] at hz
  exact ⟨z, hz, hakin⟩

/-- The nodes of a value are the value itself and the nodes of what is right inside it. -/
theorem within_of_keyed (hroot : ∃ z, given above z ∧ Akin z v)
    (h : ∀ e ∈ v.keyed, Within given (above ++ [e.1]) e.2) : Within given above v := by
  intro place x hx
  cases place with
  | nil =>
    rw [at_nil_iff.1 hx, List.append_nil]
    exact hroot
  | cons key place =>
    obtain ⟨w, hw, hx⟩ := at_cons_iff.1 hx
    rw [List.append_cons]
    exact h (key, w) hw place x hx

/-- A new object in the place of another one. -/
theorem within_map {es fs : List (Atom × Value)} {m : Option Mark}
    (h : Within given above (.object m es)) (hfs : ∀ e ∈ fs, Within given (above ++ [e.1]) e.2) :
    Within given above (.map fs) := by
  obtain ⟨z, hz, hakin⟩ := h.root
  exact within_of_keyed ⟨z, hz, hakin.isFlag_eq, nofun⟩ hfs

/-- An operation on top of another has the nodes of both. -/
theorem within_overlay {x : Option Value} (hx : ∀ y, x = some y → Within given above y) {o : Value}
    (ho : IsRecord (fun _ => True) o) (h : Within given above o) :
    Within given above (overlay x o) := by
  obtain ⟨mo, fields, rfl, hfilled, -⟩ := ho
  cases x with
  | none => exact h
  | some y =>
    cases y with
    | object my base =>
      refine within_map h ?_
      exact Assoc.forall_entry_update (p := fun k v => Within given (above ++ [k]) v)
        hfilled.distinct.exactKey (hx _ rfl).keyed h.keyed
    | _ => exact h

/-- Methods merged into a path have the nodes of both. -/
theorem within_joinPath {x : Option Value} (hobject : ∀ y, x = some y → y.isObject = true)
    (hx : ∀ y, x = some y → Within given above y) {u : Value}
    (hu : IsRecord (IsRecord fun _ => True) u) (h : Within given above u) :
    Within given above (joinPath x u) := by
  obtain ⟨mu, methods, rfl, hfilled, hrecords⟩ := hu
  have hold : ∀ e ∈ methodsOf x, Within given (above ++ [e.1]) e.2 := by
    cases x with
    | none => exact fun e he => absurd he List.not_mem_nil
    | some y =>
      obtain ⟨my, old, rfl⟩ := isObject_iff.1 (hobject y rfl)
      exact (hx _ rfl).keyed
  refine within_map h ?_
  exact Assoc.forall_entry_mergeWith (p := fun k v => Within given (above ++ [k]) v)
    hfilled.distinct.exactKey hold fun e he y hy =>
      within_overlay hy (hrecords e he) (h.keyed e he)

end Within

/-! ## Merging one section -/

/-- A section all of whose nodes were in their places before or have come in. -/
def Spread (old : Value) (brought : List Atom → Value → Prop) (new : Value) : Prop :=
  Within (fun place z => old.At place z ∨ brought place z) [] new

/-- The nodes inside a value, by their places. -/
def inside (v : Value) (place : List Atom) (z : Value) : Prop := place ≠ [] ∧ v.At place z

variable {brought brought' : List Atom → Value → Prop}

/-- A section spreads by more if more comes in. -/
theorem Spread.mono {old new : Value} (h : Spread old brought new)
    (hle : ∀ place z, brought place z → ∃ z', brought' place z' ∧ Akin z' z) :
    Spread old brought' new := by
  intro place x hx
  obtain ⟨z, hold | hin, hakin⟩ := h place x hx
  · exact ⟨z, .inl hold, hakin⟩
  · obtain ⟨z', hz', hakin'⟩ := hle _ z hin
    exact ⟨z', .inr hz', hakin'.trans hakin⟩

/-- A section that is the same object, with parts that were there or have come in. -/
theorem spread_of_regrown {old new : Value} (hflag : isFlag new = isFlag old)
    (hmark : new.mark? = old.mark?)
    (h : ∀ e ∈ new.keyed, Within (fun place z => old.At place z ∨ brought place z) [e.1] e.2) :
    Spread old brought new := by
  refine within_of_keyed ⟨old, .inl (.here old), hflag, fun i hi => ?_⟩ h
  rw [← hmark]
  exact hi

/-- New entries bring the nodes inside them. -/
theorem spread_addNew (m m' : Option Mark) (old new : List (Atom × Value)) :
    Spread (.object m old) (inside (.object m' new)) (.object m (addNew old new)) := by
  refine spread_of_regrown rfl rfl fun e he => within_of_at fun place x hx => ?_
  rcases mem_addNew he with hold | hnew
  · exact .inl (.step hold hx)
  · exact .inr ⟨List.cons_ne_nil _ _, .step hnew hx⟩

/-- Appended groups bring the nodes inside them, behind some index. -/
theorem spread_append {m : Option Mark} (items : List Value) {added groups : List Value}
    (hsubset : added ⊆ groups) :
    Spread (.list m items)
      (fun place z => ∃ key, ∃ group ∈ groups, ∃ rest, place = Atom.int key :: rest ∧
        group.At rest z)
      (.list m (items ++ added)) := by
  refine spread_of_regrown rfl rfl fun e he => within_of_at fun place x hx => ?_
  obtain ⟨i, hkey, hi⟩ := mem_keyed_list_iff.1 he
  by_cases hlt : i < items.length
  · rw [List.getElem?_append_left hlt] at hi
    exact .inl (.step (mem_keyed_list_iff.2 ⟨i, hkey, hi⟩) hx)
  · rw [List.getElem?_append_right (Nat.le_of_not_lt hlt)] at hi
    refine .inr ⟨i, e.2, hsubset (List.mem_of_getElem? hi), place, ?_, hx⟩
    rw [hkey]
    rfl

/-- Paths of a fragment bring the nodes inside them. -/
theorem spread_joinPaths (m m' : Option Mark) {paths : List (Atom × Value)}
    (hpaths : ∀ e ∈ paths, e.2.isObject = true) {uris : List String} {new : List (Atom × Value)}
    (hnew : PathEntries uris new) :
    Spread (.object m paths) (inside (.object m' new))
      (.object m (Assoc.mergeWith joinPath paths new)) := by
  refine spread_of_regrown rfl rfl ?_
  intro e he
  -- a path that is there is an object, so its methods are kept
  refine And.right (Assoc.forall_entry_mergeWith (p := fun k v => v.isObject = true ∧
    Within (fun place z => (Value.object m paths).At place z ∨ inside (.object m' new) place z)
      [k] v) hnew.distinct.exactKey (fun e he => ⟨hpaths e he, ?_⟩)
    (fun e he x hx => ⟨rfl, ?_⟩) e he)
  · exact within_of_at fun place x hx => .inl (.step he hx)
  · refine within_joinPath (fun y hy => (hx y hy).1) (fun y hy => (hx y hy).2)
      (hnew.records e he) ?_
    exact within_of_at fun place x hx => .inr ⟨List.cons_ne_nil _ _, .step he hx⟩

/-! ## The invariant of a run -/

/-- The places where a section of a document stands: its own place, and every place of a node that
is the same object. -/
inductive Stands (document : Value) (key : String) : List Atom → Prop where
  | own : Stands document key [.text key]
  | shared {v x : Value} {mark : Mark} {place : List Atom} (hfield : document.field? key = some v)
      (hmark : v.mark? = some mark) (hx : document.At place x) (hxmark : x.mark? = some mark) :
      Stands document key place

/-- The nodes of a start and those that come in, by the places that they have in a document. -/
inductive Origin (start : Value) (brought : String → List Atom → Value → Prop) :
    List Atom → Value → Prop where
  | start {place : List Atom} {z : Value} (h : start.At place z) : Origin start brought place z
  | brought {key : String} {above below : List Atom} {z : Value} (habove : Stands start key above)
      (hbelow : brought key below z) : Origin start brought (above ++ below) z

/-- What may come in: nodes without numbers. -/
def AreNew (brought : String → List Atom → Value → Prop) : Prop :=
  ∀ key place z, brought key place z → ∀ i, z.mark? ≠ some (.node i)

/-- The entries of a document all of whose nodes are of the start or have come in. -/
structure Traced (start : Value) (brought : String → List Atom → Value → Prop) (m : Option Mark)
    (entries : List (Atom × Value)) : Prop where
  isOpen : Open entries
  marks : ∀ key v, Assoc.get? (.text key) entries = some v →
    ∃ v₀, start.field? key = some v₀ ∧ v₀.mark? = v.mark?
  places : Within (Origin start brought) [] (.object m entries)

section Traced

variable {start : Value} {brought : String → List Atom → Value → Prop} {m : Option Mark}
  {entries : List (Atom × Value)} {heap : Nat → Value} {old new : Value} {key : String}

/-- A place where a section is the same object as before is a place where it stands. -/
theorem Traced.stands (h : Traced start brought m entries) (hnew : AreNew brought)
    (hget : Assoc.get? (.text key) entries = some old) {i : Nat}
    (hmark : old.mark? = some (.node i)) {place : List Atom}
    (hplace : (Value.object m entries).At place old) :
    Stands start key place := by
  obtain ⟨v₀, hfield, hv₀⟩ := h.marks key old hget
  obtain ⟨z, hz, hakin⟩ := h.places place old hplace
  have hzmark : z.mark? = some (.node i) := hakin.number i hmark
  rw [List.nil_append] at hz
  cases hz with
  | start hz => exact .shared hfield (hv₀.trans hmark) hz hzmark
  | brought _ hin => exact absurd hzmark (hnew _ _ _ hin i)

/-- The nodes of a section after a merge, behind a place where the section is. -/
theorem Traced.within_section (h : Traced start brought m entries)
    (hspread : Spread old (brought key) new) {place : List Atom}
    (hplace : (Value.object m entries).At place old) (hstands : Stands start key place) :
    Within (Origin start brought) place new := by
  intro below x hx
  obtain ⟨z, hz, hakin⟩ := hspread below x hx
  rw [List.nil_append] at hz
  rcases hz with hold | hin
  · obtain ⟨z', hz', hakin'⟩ := h.places (place ++ below) z (hplace.append hold)
    exact ⟨z', hz', hakin'.trans hakin⟩
  · exact ⟨z, .brought hstands hin, hakin⟩

/-- One step: a section is merged into, and changes wherever it stands. -/
theorem Traced.putSection (h : Traced start brought m entries) (hnew : AreNew brought)
    (hsound : Sound heap entries) (hget : Assoc.get? (.text key) entries = some old)
    (hchange : Change heap old new) (hspread : Spread old (brought key) new)
    (hopen : Open (Document.putSection key old new entries)) :
    Traced start brought m (Document.putSection key old new entries) := by
  obtain ⟨hfollows, hnum⟩ := hsound.get? hget
  have hmem : (Atom.text key, old) ∈ entries :=
    Assoc.mem_of_get?_of_isExact (Atom.isExact_text key) hget
  -- the section itself, in its own place; what is below decides where else it shows
  have hown : Within (Origin start brought) [.text key] new :=
    h.within_section hspread (.step hmem (.here old)) .own
  refine ⟨hopen, fun key' v hv => ?_, ?_⟩
  · by_cases hkey : key = key'
    · subst hkey
      rw [get?_putSection_self hchange.regrown] at hv
      cases hv
      rw [hchange.regrown.mark?_eq]
      exact h.marks key old hget
    · rw [get?_putSection_of_ne hkey] at hv
      obtain ⟨w, hw, rfl⟩ := Option.map_eq_some_iff.1 hv
      rw [(hchange.patch_regrown hfollows hnum (hsound.get? hw).1).mark?_eq]
      exact h.marks key' w hw
  · -- another section has the changed object only where it has its mark
    obtain ⟨z, hz, hakin⟩ := h.places.root
    refine within_of_keyed ⟨z, hz, hakin.isFlag_eq, hakin.number⟩ ?_
    intro e he
    rw [keyed, putSection_eq] at he
    obtain ⟨⟨k, w⟩, hw, rfl⟩ := List.mem_map.1 he
    rcases Assoc.mem_insert_of_isExact (Atom.isExact_text key) hw with hold | heq
    · cases hmark : old.mark? with
      | none =>
        rw [patch_of_mark?_eq_none hmark]
        exact h.places.keyed (k, w) hold
      | some mark =>
        obtain ⟨j, rfl⟩ := hnum mark hmark
        rw [patch_of_mark?_eq_some hmark]
        intro place x hx
        rcases hx.of_refresh with ⟨x₀, hx₀, hakin₀⟩ | ⟨above, below, y, rfl, hy, hymark, hbelow⟩
        · obtain ⟨z', hz', hakin'⟩ := h.places (k :: place) x₀ (.step hold hx₀)
          exact ⟨z', hz', hakin'.trans hakin₀⟩
        · -- below a place where the section is: there it is the same object, so it stands there
          have hsame : y = old := by
            have hyheap := (hsound.follows _ hold) y _ hy.node hymark j rfl
            rw [hyheap, ← hfollows.root hmark j rfl]
          rw [hsame] at hy
          have hplace : (Value.object m entries).At (k :: above) old := .step hold hy
          have hstands := h.stands hnew hget hmark hplace
          exact h.within_section hspread hplace hstands below x hbelow
    · obtain ⟨rfl, rfl⟩ := Prod.mk.inj heq
      rw [hchange.regrown.patch_new]
      exact hown

/-- One step, for a section of any kind. -/
theorem Traced.mergeInto (h : Traced start brought m entries) (hnew : AreNew brought)
    (kind : SectionKind) {value : Value} (hvalue : value.IsNew)
    (hget : Assoc.get? (.text key) entries = some old)
    (hspread : Spread old (brought key) (mergeSection kind old value).value)
    (hopen : Open (mergeInto key kind value entries)) :
    Traced start brought m (mergeInto key kind value entries) := by
  obtain ⟨heap, hsound⟩ := h.isOpen.sound
  rw [mergeInto_eq hget] at hopen ⊢
  exact h.putSection hnew hsound hget (mergeSection_change kind hvalue) hspread hopen

end Traced

/-! ## The run -/

/-- The nodes that a fragment brings into each section, by their places there. A group comes behind
those that are there, so its index is not known. -/
inductive Brings (f : Fragment) : String → List Atom → Value → Prop where
  | paths {place : List Atom} {z : Value} (h : inside f.pathsValue place z) :
      Brings f "paths" place z
  | group {g : Group} {i : Int} {place : List Atom} {z : Value} (hg : g ∈ f.groups)
      (h : (Fragment.groupValue g).At place z) : Brings f "tags" (.int i :: place) z
  | definitions {place : List Atom} {z : Value} (h : inside f.definitionsValue place z) :
      Brings f "definitions" place z

/-- The nodes that some of the blocks of a list bring. -/
def BroughtBy (blocks : List Block) (key : String) (place : List Atom) (z : Value) : Prop :=
  ∃ b ∈ blocks, ∃ number f,
    Fragment.ofBlock (fun code => some (.headers number code)) b = .ok f ∧ Brings f key place z

/-- What blocks bring has no numbers. -/
theorem areNew_broughtBy (blocks : List Block) : AreNew (BroughtBy blocks) := by
  rintro key place z ⟨b, -, number, f, hf, hz⟩ i hi
  have hnew : f.toValue.IsNew := by
    refine (Fragment.denotes_toValue (fun code i heq => ?_) hf).new
    cases heq
  -- the node is one of the value of the fragment
  have hnode : Node z f.toValue := by
    have hsection : ∀ {k v}, (k, v) ∈ f.toValue.keyed → Node z v → Node z f.toValue :=
      fun hmem hz => .part (mem_parts_of_mem_keyed hmem) hz
    cases hz with
    | paths h => exact hsection List.mem_cons_self h.2.node
    | group hg h =>
      refine hsection (List.mem_cons_of_mem _ List.mem_cons_self) ?_
      exact .part (List.mem_map_of_mem hg) h.node
    | definitions h =>
      exact hsection (List.mem_cons_of_mem _ (List.mem_cons_of_mem _ List.mem_cons_self)) h.2.node
  exact hnew z _ hnode hi i rfl

/-- A node without a number is akin to a node with the same content. -/
theorem akin_of_plain {x z : Value} (h : x.plain = z.plain) (hnew : ∀ i, z.mark? ≠ some (.node i)) :
    Akin x z :=
  ⟨isFlag_eq_of_plain h.symm, fun i hi => absurd hi (hnew i)⟩

/-- The nodes of a value without numbers are akin to those of a value with the same content. -/
theorem exists_at_of_plain {u v z : Value} (hnew : u.IsNew) (heq : u.plain = v.plain)
    {place : List Atom} (h : u.At place z) : ∃ z', v.At place z' ∧ Akin z' z := by
  obtain ⟨z', hz', hplain⟩ := h.of_plain heq
  exact ⟨z', hz', akin_of_plain hplain fun i hi => hnew z _ h.node hi i rfl⟩

/-- New values that differ in marks only have nodes that are akin. -/
theorem exists_inside_of_plain {u v z : Value} (hnew : u.IsNew) (heq : u.plain = v.plain)
    {place : List Atom} (h : inside u place z) : ∃ z', inside v place z' ∧ Akin z' z := by
  obtain ⟨z', hz', hakin⟩ := exists_at_of_plain hnew heq h.2
  exact ⟨z', ⟨h.1, hz'⟩, hakin⟩

section Run

variable {start : Value} {brought : String → List Atom → Value → Prop} {blocks : List Block}
  {m : Option Mark} {entries : List (Atom × Value)}

/-- Nodes stay traced when paths come in. -/
theorem Traced.mergePaths (h : Traced start brought m entries) (hnew : AreNew brought)
    {markOf : String → Option Mark} {b : Block} {f : Fragment}
    (hf : Fragment.ofBlock markOf b = .ok f) {paths : Value}
    (hcontent : paths.plain = f.pathsValue.plain) (hpaths : paths.IsNew)
    (hbrought : ∀ place z, Brings f "paths" place z → brought "paths" place z)
    (hopen : Open (Document.mergeInto "paths" .paths paths entries)) :
    Traced start brought m (Document.mergeInto "paths" .paths paths entries) := by
  obtain ⟨p, hp, hpobject, hpobjects⟩ := h.isOpen.shaped.paths
  obtain ⟨mp, old, rfl⟩ := isObject_iff.1 hpobject
  have hold := holdsObjects_object.1 hpobjects
  obtain ⟨mn, new, rfl, hentries⟩ := PathEntries.of_plain (Fragment.ofBlock_pathsFilled hf)
    (f.pathsValue_eq ▸ hcontent)
  refine h.mergeInto hnew .paths hpaths hp ?_ hopen
  have hmerged := mergePaths_of_objects mp mn hold hentries.isObject
  rw [mergeSection, hmerged]
  refine (spread_joinPaths mp mn hold hentries).mono fun place z hz => ?_
  obtain ⟨z', hz', hakin⟩ := exists_inside_of_plain hpaths hcontent hz
  exact ⟨z', hbrought _ _ (.paths hz'), hakin⟩

/-- Nodes stay traced when groups come in. -/
theorem Traced.mergeGroups (h : Traced start brought m entries) (hnew : AreNew brought)
    {f : Fragment} {groups : Value}
    (hcontent : groups.plain = (Fragment.groupsValue f.groups).plain) (hgroups : groups.IsNew)
    (hbrought : ∀ place z, Brings f "tags" place z → brought "tags" place z)
    (hopen : Open (Document.mergeInto "tags" .groups groups entries)) :
    Traced start brought m (Document.mergeInto "tags" .groups groups entries) := by
  obtain ⟨t, ht, htlist, htobjects⟩ := h.isOpen.shaped.tags
  obtain ⟨mt, items, rfl⟩ := isList_iff.1 htlist
  obtain ⟨-, hnewObjects⟩ := Fragment.shape_of_groupsValue hcontent
  obtain ⟨mg, new, rfl, -⟩ := eq_list_of_plain hcontent
  refine h.mergeInto hnew .groups hgroups ht ?_ hopen
  obtain ⟨added, hmerged, hadded⟩ := addGroups_appended mt (holdsObjects_list.1 htobjects)
    (holdsObjects_list.1 hnewObjects)
  rw [mergeSection, Document.mergeGroups, itemsOrSelf, hmerged]
  refine (spread_append items hadded.sublist.subset).mono ?_
  rintro place z ⟨i, group, hgroup, rest, rfl, hz⟩
  obtain ⟨w, hw, hplain⟩ := exists_part_of_plain hcontent hgroup
  obtain ⟨g, hg, rfl⟩ := List.mem_map.1 hw
  obtain ⟨z', hz', hakin⟩ := exists_at_of_plain (hgroups.part hgroup) hplain.symm hz
  exact ⟨z', hbrought _ _ (.group hg hz'), hakin⟩

/-- Nodes stay traced when definitions come in. -/
theorem Traced.mergeDefinitions (h : Traced start brought m entries) (hnew : AreNew brought)
    {f : Fragment} {definitions : Value} (hcontent : definitions.plain = f.definitionsValue.plain)
    (hdefinitions : definitions.IsNew)
    (hbrought : ∀ place z, Brings f "definitions" place z → brought "definitions" place z)
    (hopen : Open (Document.mergeInto "definitions" .map definitions entries)) :
    Traced start brought m (Document.mergeInto "definitions" .map definitions entries) := by
  obtain ⟨d, hd, hdobject⟩ := h.isOpen.shaped.definitions
  obtain ⟨md, old, rfl⟩ := isObject_iff.1 hdobject
  obtain ⟨mn, new, rfl, -⟩ := eq_object_of_plain hcontent
  refine h.mergeInto hnew .map hdefinitions hd ?_ hopen
  refine (spread_addNew md mn old new).mono fun place z hz => ?_
  obtain ⟨z', hz', hakin⟩ := exists_inside_of_plain hdefinitions hcontent hz
  exact ⟨z', hbrought _ _ (.definitions hz'), hakin⟩

/-- A fragment of one of the blocks leaves a document whose nodes have an origin. -/
theorem Traced.addFragment (h : Traced start (BroughtBy blocks) m entries) {b : Block}
    (hb : b ∈ blocks) {number : Nat} {f : Fragment}
    (hf : Fragment.ofBlock (fun code => some (.headers number code)) b = .ok f) {v : Value}
    (hv : f.Denotes v) :
    ∃ entries', Document.addFragment (.object m entries) v = .object m entries' ∧
      Traced start (BroughtBy blocks) m entries' := by
  have hbrought : ∀ key place z, Brings f key place z → BroughtBy blocks key place z :=
    fun _ _ _ hz => ⟨b, hb, number, f, hf, hz⟩
  have hnew := areNew_broughtBy blocks
  obtain ⟨paths, groups, definitions, withPaths, withGroups, withDefinitions, ⟨hpcontent, hpnew⟩,
    ⟨hgcontent, hgnew⟩, ⟨hdcontent, hdnew⟩, ⟨rfl, hpopen⟩, ⟨rfl, hgopen⟩, ⟨rfl, hdopen⟩, hadd⟩ :=
    h.isOpen.addSteps m hv
  have hpaths := h.mergePaths hnew hf hpcontent hpnew (hbrought _) hpopen
  have hgroups := hpaths.mergeGroups hnew hgcontent hgnew (hbrought _) hgopen
  have hdefinitions := hgroups.mergeDefinitions hnew hdcontent hdnew (hbrought _) hdopen
  refine ⟨_, ?_, hdefinitions⟩
  rw [Document.addFragment, hadd]

/-- A run over blocks leaves a document whose nodes have an origin. -/
theorem Traced.runBlocks (h : Traced start (BroughtBy blocks) m entries)
    {pathBlocks : List (String × Block)} (hblocks : ∀ e ∈ pathBlocks, e.2 ∈ blocks) (number : Nat) :
    ∃ entries', (Document.runBlocks number (.object m entries) pathBlocks).document =
        .object m entries' ∧
      Traced start (BroughtBy blocks) m entries' := by
  induction pathBlocks generalizing entries number with
  | nil => exact ⟨entries, rfl, h⟩
  | cons head rest ih =>
    obtain ⟨path, b⟩ := head
    obtain ⟨hb, hrest⟩ := List.forall_mem_cons.1 hblocks
    rw [Document.runBlocks]
    rcases addBlock_cases path number (.object m entries) b with
      ⟨fault, -, hsame⟩ | ⟨f, v, hread, hv, hadd⟩
    · rw [hsame]
      exact ih h hrest (number + 1)
    · obtain ⟨entries', hadd', htraced⟩ := h.addFragment hb hread hv
      rw [hadd, hadd']
      exact ih htraced hrest (number + 1)

/-- A document is traced at its start. -/
theorem traced_start (hopen : Open entries) :
    Traced (.object m entries) (BroughtBy blocks) m entries :=
  ⟨hopen, fun _ v hv => ⟨v, hv, rfl⟩, within_of_at fun _ _ hx => .start hx⟩

/-- Every node of the document of a run has been in its place from the start, or a block has brought
it to a place below a section. -/
theorem runBlocks_origin (hopen : Open entries) (pathBlocks : List (String × Block)) (number : Nat)
    {place : List Atom} {x : Value}
    (hx : (runBlocks number (.object m entries) pathBlocks).document.At place x) :
    ∃ z, Origin (.object m entries) (BroughtBy (pathBlocks.map Prod.snd)) place z ∧ Akin z x := by
  obtain ⟨entries', heq, htraced⟩ := (traced_start hopen).runBlocks
    (fun e (he : e ∈ pathBlocks) => List.mem_map_of_mem he) number
  rw [heq] at hx
  exact htraced.places place x hx

end Run

end Document

end ApiDoc
