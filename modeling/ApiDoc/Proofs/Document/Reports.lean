import ApiDoc.Proofs.Except
import ApiDoc.Proofs.Document.Provenance
import ApiDoc.Proofs.Fragment.Names

/-!
# What a search reports of a document

If a search reports nothing of a seed, then of the document of source files it reports only names
that the sources choose, in the places that these names have below a section
(`generate_reportedPlaces`). No key that is the same for all blocks and no name of a property is
reported. A section that is also another part of the seed has its names reported there as well.
-/

namespace ApiDoc

open Value

namespace Document

/-! ## The start -/

/-- What is reported depends on the place of a node and on whether it is a truth value. -/
theorem isReported_congr {wrong : List Value} {allowFlags : Bool} {place : List Atom} {z x : Value}
    (h : Akin z x) :
    isReported wrong allowFlags place x = isReported wrong allowFlags place z := by
  rw [isReported, isReported, h.isFlag_eq]

/-- What is reported of the start of a document is in the seed. -/
theorem at_seed_of_isReported {m m' : Option Mark} {seed entries : List (Atom × Value)}
    (h : ofSeed (.object m seed) = .ok (.object m' entries)) {place : List Atom} {z : Value}
    (hz : (Value.object m' entries).At place z)
    (hreported : isReported wrongProperties true place z = true) :
    (Value.object m seed).At place z := by
  cases place with
  | nil => cases hreported
  | cons key place =>
    obtain ⟨w, hw, hplace⟩ := at_cons_iff.1 hz
    -- what the seed has not is empty, and its key is not wrong
    have hempty : ∀ k, isWrong (.text k) = false → w.keyed = [] → key = .text k → False := by
      rintro k hwrong hkeyed rfl
      have hquiet : Quiet (.text k) w := by
        refine quiet_of_keyed (.inl hwrong) fun e he => ?_
        rw [hkeyed] at he
        exact absurd he List.not_mem_nil
      have hnot := hquiet [] place z hplace
      rw [List.nil_append, hreported] at hnot
      cases hnot
    rcases mem_ofSeed h hw with hold | heq | ⟨s, hs, heq⟩
    · exact .step hold hplace
    · obtain ⟨hkey, rfl⟩ := Prod.mk.inj heq
      exact absurd hkey (hempty _ (by decide) rfl)
    · obtain ⟨hkey, rfl⟩ := Prod.mk.inj heq
      have hsections : ∀ s ∈ initialSections, isWrong (.text s.1) = false ∧ s.2.keyed = [] := by
        decide
      exact absurd hkey (hempty _ (hsections s hs).1 (hsections s hs).2)

/-- What is reported of the nodes that a block brings are names that the block chooses. -/
theorem Brings.isChosen {markOf : String → Option Mark} {b : Block} {f : Fragment}
    (hf : Fragment.ofBlock markOf b = .ok f) {key : String} {above below : List Atom} {z : Value}
    (h : Brings f key below z)
    (hreported : isReported wrongProperties true (above ++ below) z = true) :
    IsChosen b key below := by
  cases h with
  | paths h => exact isChosen_of_paths hf h.1 h.2 hreported
  | @group g i place _ _ h =>
    rw [quiet_groupValue i g above place z h] at hreported
    cases hreported
  | definitions h => exact isChosen_of_definitions hf h.1 h.2 hreported

/-! ## The run -/

/-- The sections that a block chooses names in. -/
def namedSections : List String := ["paths", "definitions"]

/-- A block chooses names in paths, tags and definitions only. -/
theorem mem_namedSections_of_isChosen {b : Block} {key : String} {place : List Atom}
    (h : IsChosen b key place) : key ∈ namedSections := by
  cases h <;> simp [namedSections]

/-- What is reported after a run is a name that one of the blocks chooses, below a section. -/
theorem runBlocks_reported {seed : Value} (hread : seed.IsRead) (hshape : HasShape seed)
    (hclean : deprecatedKeys true [seed] = []) {start : Value} (hstart : ofSeed seed = .ok start)
    (blocks : List (String × Block)) (number : Nat) :
    ∀ place ∈ reportedPlaces wrongProperties true [] (runBlocks number start blocks).document,
      ∃ key above below, place = above ++ below ∧ Stands start key above ∧
        ∃ e ∈ blocks, IsChosen e.2 key below := by
  intro place hplace
  obtain ⟨m, old, entries, rfl, rfl⟩ := eq_object_of_ofSeed hstart
  obtain ⟨x, hx, hreported⟩ := mem_reportedPlaces_iff.1 hplace
  obtain ⟨z, horigin, hakin⟩ := runBlocks_origin (ofSeed_open hread hshape hstart) blocks number hx
  rw [isReported_congr hakin] at hreported
  cases horigin with
  | start hz =>
    -- the seed has nothing to report
    have hseed := mem_reportedPlaces_iff.2
      ⟨z, at_seed_of_isReported hstart hz hreported, hreported⟩
    rw [reportedPlaces_eq_nil hclean] at hseed
    exact absurd hseed List.not_mem_nil
  | @brought key above below _ habove hbelow =>
    obtain ⟨b, hb, number, f, hf, hbrings⟩ := hbelow
    obtain ⟨e, he, rfl⟩ := List.mem_map.1 hb
    exact ⟨key, above, below, rfl, habove, e, he, hbrings.isChosen hf hreported⟩

/-- In a seed without marks no object is in two places, so the sections stand in their own places
only. -/
theorem Stands.eq_own {seed start : Value} (hseed : seed.Marked fun _ _ => False)
    (hstart : ofSeed seed = .ok start) {key : String} {above : List Atom}
    (h : Stands start key above) : above = [.text key] := by
  obtain ⟨m, old, entries, rfl, rfl⟩ := eq_object_of_ofSeed hstart
  have hunmarked : ∀ e ∈ entries, e.2.mark? = none := by
    refine forall_mem_ofSeed (P := fun v => v.mark? = none) hstart (fun e he => ?_) rfl rfl rfl
    refine Option.eq_none_iff_forall_ne_some.2 fun mark hmark => ?_
    exact hseed.entries.values e he e.2 mark .self hmark
  cases h with
  | own => rfl
  | shared hfield hmark =>
    obtain ⟨k, hk⟩ := Assoc.mem_of_get? hfield
    exact absurd ((hunmarked _ hk).symm.trans hmark) nofun

end Document

open Document

/-- If a seed has the shape of a document and a search for wrong keys, truth values apart, reports
nothing of it, then what the search reports of the document of source files are names that the
sources choose: paths, methods, status codes, names of headers, keys inside security requirements
and names of definitions, each in its place below one where the paths or the definitions of the
start stand. If these stand nowhere but in their own places, that is below the key `paths` or
`definitions` of the document. -/
theorem Options.generate_reportedPlaces (tree : FileTree) (options : Options)
    {places : List (List String)} (hglob : tree.glob options.basedir options.files = .ok places)
    (hread : (Value.map options.definition).IsRead) (hshape : HasShape (.map options.definition))
    (hclean : deprecatedKeys true [.map options.definition] = []) :
    ∃ start document, ofSeed (.map options.definition) = .ok start ∧
      (options.generate tree).document = .ok document ∧
      deprecatedKeys true [document] =
        (reportedPlaces wrongProperties true [] document).filterMap List.getLast? ∧
      (∀ place ∈ reportedPlaces wrongProperties true [] document,
        ∃ key above below, place = above ++ below ∧ Stands start key above ∧
          ∃ e ∈ blocksOf (tree.sources places), IsChosen e.2 key below) ∧
      ((∀ key ∈ namedSections, ∀ above, Stands start key above → above = [.text key]) →
        ∀ place ∈ reportedPlaces wrongProperties true [] document,
          ∃ key below, place = .text key :: below ∧
            ∃ e ∈ blocksOf (tree.sources places), IsChosen e.2 key below) := by
  obtain ⟨entries, hstart⟩ := ofSeed_object none options.definition
  obtain ⟨hdocument, -⟩ := generate_eq_runBlocks tree options hglob hstart
  have hreported := runBlocks_reported hread hshape hclean hstart (blocksOf (tree.sources places)) 0
  refine ⟨_, _, hstart, hdocument, deprecatedKeys_singleton true _, hreported, ?_⟩
  intro halone place hplace
  obtain ⟨key, above, below, rfl, hstands, e, he, hchosen⟩ := hreported place hplace
  rw [halone key (mem_namedSections_of_isChosen hchosen) above hstands]
  exact ⟨key, below, rfl, e, he, hchosen⟩

/-- A file with one route, whose path is a wrong key. -/
def tagTree : FileTree := ⟨[(["pets.js"], .file "/** @route GET tag */".toUTF8)], []⟩

/-- The one key that is reported of the route is its path. -/
theorem Options.generate_reportedPlaces_tag :
    tagTree.glob blankOptions.basedir blankOptions.files = .ok [["pets.js"]] ∧
      deprecatedKeys true [.map blankOptions.definition] = [] ∧
      ∃ document, (blankOptions.generate tagTree).document = .ok document ∧
        deprecatedKeys true [document] = [.text "tag"] ∧
        ∀ place ∈ reportedPlaces wrongProperties true [] document,
          ∃ key below, place = .text key :: below ∧
            ∃ e ∈ blocksOf (tagTree.sources [["pets.js"]]), IsChosen e.2 key below := by
  have hglob : tagTree.glob blankOptions.basedir blankOptions.files = .ok [["pets.js"]] := by
    decide +kernel
  have hclean : deprecatedKeys true [.map blankOptions.definition] = [] := by
    decide +kernel
  have hkeys : ((blankOptions.generate tagTree).document.toOption.map fun document =>
      deprecatedKeys true [document]) = some [.text "tag"] := by
    decide +kernel
  have hread : (Value.map blankOptions.definition).IsRead :=
    ⟨fun _ => .null, markedEntries_nil.map⟩
  have hunmarked : (Value.map blankOptions.definition).Marked fun _ _ => False :=
    markedEntries_nil.map
  have hshape : HasShape (.map blankOptions.definition) := ⟨nofun, nofun, nofun⟩
  obtain ⟨start, document, hstart, hdocument, -, -, hplaces⟩ :=
    generate_reportedPlaces tagTree blankOptions hglob hread hshape hclean
  refine ⟨hglob, hclean, document, hdocument, ?_, ?_⟩
  · rw [hdocument] at hkeys
    exact Option.some.inj hkeys
  · exact hplaces fun key _ above hstands => hstands.eq_own hunmarked hstart

/-- Options whose paths are another part of the seed as well. -/
def aliasOptions : Options where
  definition :=
    [(.text "paths", .object (some (.node 0)) []), (.text "x-paths", .object (some (.node 0)) [])]
  files := ["*.js"]
  basedir := ⟨.here, []⟩
  route := {}

/-- The seed has the shape of a document and nothing is reported of it, but a path of the sources is
reported also below a key that is neither `paths` nor `definitions`. -/
theorem reported_outside_sections :
    (Value.map aliasOptions.definition).IsRead ∧ HasShape (.map aliasOptions.definition) ∧
      deprecatedKeys true [.map aliasOptions.definition] = [] ∧
      ∃ document, (aliasOptions.generate tagTree).document = .ok document ∧
        deprecatedKeys true [document] = [.text "tag", .text "tag"] ∧
        reportedPlaces wrongProperties true [] document =
          [[.text "paths", .text "tag"], [.text "x-paths", .text "tag"]] := by
  have hkeys : ((aliasOptions.generate tagTree).document.toOption.map fun document =>
      (deprecatedKeys true [document], reportedPlaces wrongProperties true [] document)) =
      some ([.text "tag", .text "tag"],
        [[.text "paths", .text "tag"], [.text "x-paths", .text "tag"]]) := by
    decide +kernel
  obtain ⟨document, hdocument, heq⟩ := Option.map_eq_some_iff.1 hkeys
  obtain ⟨hreported, hplaces⟩ := Prod.mk.inj heq
  have hread : (Value.map aliasOptions.definition).IsRead :=
    isRead_of_one_object (by decide) (by simp [aliasOptions])
  refine ⟨hread, ⟨?_, nofun, nofun⟩, by decide +kernel, document, eq_ok_of_toOption hdocument,
    hreported, hplaces⟩
  intro v hv
  cases hv
  exact ⟨rfl, rfl⟩

end ApiDoc
