import ApiDoc.Proofs.Document.Seed

/-!
# The run over all blocks

The document of source files is made by one run over their tagged blocks, in order
(`addSources_document`). If the seed has the shape of a document, then the run merges the fragments
of exactly the blocks that can be read, without a fault, and reports each of the other blocks once:
`generate_eq_foldl_fragments`.
-/

namespace ApiDoc

namespace Document

/-! ## The run -/

/-- The tagged blocks of source texts, in order, each with the path of its source. -/
def blocksOf (sources : List (String × List Char)) : List (String × Block) :=
  sources.flatMap fun s => (taggedBlocks s.2).map fun b => (s.1, b)

/-- A document with blocks merged into it, one after another. -/
def runBlocks (number : Nat) (document : Value) : List (String × Block) → Drafted
  | [] => ⟨document, []⟩
  | (path, b) :: rest =>
    let first := addBlock path number document b
    let last := runBlocks (number + 1) first.document rest
    ⟨last.document, first.notices ++ last.notices⟩

/-- Blocks in a row are merged one part after the other, with numbers that go on. -/
theorem runBlocks_append (number : Nat) (document : Value) (as bs : List (String × Block)) :
    runBlocks number document (as ++ bs) =
      ⟨(runBlocks (number + as.length) (runBlocks number document as).document bs).document,
        (runBlocks number document as).notices ++
          (runBlocks (number + as.length) (runBlocks number document as).document bs).notices⟩ := by
  induction as generalizing number document with
  | nil => rfl
  | cons a as ih =>
    have hnumber : number + (a :: as).length = number + 1 + as.length := by
      rw [List.length_cons]
      omega
    simp only [List.cons_append, runBlocks, ih, hnumber, List.append_assoc]

/-- The blocks of one source are merged as blocks with its path. -/
theorem addBlocks_eq_runBlocks (path : String) (number : Nat) (document : Value)
    (blocks : List Block) :
    addBlocks path number document blocks =
      runBlocks number document (blocks.map fun b => (path, b)) := by
  induction blocks generalizing number document with
  | nil => rfl
  | cons b blocks ih => simp only [addBlocks, List.map_cons, runBlocks, ih]

/-- The document of source texts is that of the run over their tagged blocks. -/
theorem addSources_document (number : Nat) (document : Value)
    (sources : List (String × List Char)) :
    (addSources number document sources).document =
      (runBlocks number document (blocksOf sources)).document := by
  induction sources generalizing number document with
  | nil => rfl
  | cons s sources ih =>
    obtain ⟨path, text⟩ := s
    simp only [addSources, blocksOf, List.flatMap_cons, runBlocks_append, List.length_map,
      addBlocks_eq_runBlocks]
    exact ih _ _

/-! ## Notices of faults -/

/-- The notices that report a fault. -/
def errors (notices : List Notice) : List Notice := notices.filter fun n => n.level == .error

/-- The faults of two series of notices. -/
theorem errors_append (as bs : List Notice) : errors (as ++ bs) = errors as ++ errors bs :=
  List.filter_append ..

/-- Notices without faults report none. -/
theorem errors_eq_nil {notices : List Notice} (h : ∀ n ∈ notices, n.level ≠ .error) :
    errors notices = [] := by
  refine List.filter_eq_nil_iff.2 fun n hn => ?_
  rw [beq_iff_eq]
  exact h n hn

/-- A tag that is passed over is warned of. -/
theorem level_tagNotices (opened : Bool) (tag : Tag) :
    ∀ n ∈ Fragment.tagNotices opened tag, n.level = .warning := by
  have hparameter : ∀ n ∈ Operation.notices tag, n.level = .warning := by
    unfold Operation.notices Parameter.notices
    split
    · simp only
      split
      · exact List.forall_mem_singleton.2 rfl
      · exact fun n hn => absurd hn List.not_mem_nil
    · exact fun n hn => absurd hn List.not_mem_nil
  unfold Fragment.tagNotices
  split
  · exact List.forall_mem_singleton.2 rfl
  · split
    · exact fun n hn => absurd hn List.not_mem_nil
    · split
      · exact List.forall_mem_singleton.2 rfl
      · split
        · exact hparameter
        · exact List.forall_mem_singleton.2 rfl

/-- What the tags of an operation block report are warnings. -/
theorem level_walkNotices (opened : Bool) (tags : List Tag) :
    ∀ n ∈ Fragment.walkNotices opened tags, n.level = .warning := by
  induction tags generalizing opened with
  | nil => exact fun n hn => absurd hn List.not_mem_nil
  | cons tag tags ih =>
    rw [Fragment.walkNotices]
    refine List.forall_mem_append.2 ⟨level_tagNotices opened tag, ?_⟩
    split
    · exact fun n hn => absurd hn List.not_mem_nil
    · exact ih _

/-- A definition reports no faults of its tags. -/
theorem level_definitionNotices (typedef : String) (tags : List Tag) :
    ∀ n ∈ Definition.tagNotices typedef tags, n.level ≠ .error := by
  induction tags with
  | nil => exact fun n hn => absurd hn List.not_mem_nil
  | cons tag tags ih =>
    unfold Definition.tagNotices
    split
    · split
      · exact fun n hn => absurd hn List.not_mem_nil
      · exact ih
    · exact List.forall_mem_cons.2 ⟨nofun, ih⟩

/-- Reading a block reports no fault; that is left to the run. -/
theorem errors_notices (b : Block) : errors (Fragment.notices b) = [] := by
  refine errors_eq_nil ?_
  unfold Fragment.notices
  split
  · exact fun n hn => absurd hn List.not_mem_nil
  · split
    · unfold Definition.notices
      exact forall_mem_elim fun name _ => level_definitionNotices name _
    · intro n hn
      rw [level_walkNotices false _ n hn]
      decide

/-- Reading comments reports no faults. -/
theorem errors_commentNotices (text : List Char) : errors (Comment.notices text) = [] := by
  refine errors_eq_nil fun n hn => ?_
  obtain ⟨content, -, hn⟩ := List.mem_flatMap.1 hn
  obtain ⟨s, -, hn⟩ := List.mem_flatMap.1 hn
  unfold Comment.Section.notices at hn
  split at hn
  · exact absurd hn List.not_mem_nil
  · split at hn
    · exact absurd hn List.not_mem_nil
    · rw [List.mem_singleton.1 hn]
      exact nofun

/-- The faults of sources are those of their blocks. -/
theorem addSources_errors (number : Nat) (document : Value)
    (sources : List (String × List Char)) :
    errors (addSources number document sources).notices =
      errors (runBlocks number document (blocksOf sources)).notices := by
  induction sources generalizing number document with
  | nil => rfl
  | cons s sources ih =>
    obtain ⟨path, text⟩ := s
    simp only [addSources, blocksOf, List.flatMap_cons, runBlocks_append, List.length_map,
      addBlocks_eq_runBlocks, errors_append, errors_commentNotices, List.nil_append]
    exact congrArg _ (ih _ _)

/-! ## Open documents -/

/-- What the block with a number adds to a document, if the block can be read. -/
def fragmentOf? (number : Nat) (b : Block) : Except FormatFault Value :=
  (Fragment.ofBlock (fun code => some (.headers number code)) b).map fun f =>
    (f.toValue.numbered number 0).1

/-- What the blocks that can be read add to a document, in order. -/
def fragments (number : Nat) (blocks : List (String × Block)) : List Value :=
  (blocks.zipIdx number).filterMap fun ((_, b), i) => (fragmentOf? i b).toOption

/-- What is reported of the blocks that cannot be read, in order. -/
def failures (number : Nat) (blocks : List (String × Block)) : List Notice :=
  (blocks.zipIdx number).filterMap fun ((path, b), i) =>
    match fragmentOf? i b with
    | .ok _ => none
    | .error fault => some (.blockFailed path b.source (.format fault))

/-- A document with a fragment, whether or not all of it could be merged. -/
def addFragment (document fragment : Value) : Value := (add document (.array [fragment])).value

/-- What a block adds is written from a fragment. -/
theorem fragmentOf?_denotes {number : Nat} {b : Block} {v : Value}
    (h : fragmentOf? number b = .ok v) : ∃ f : Fragment, f.Denotes v := by
  unfold fragmentOf? at h
  cases hread : Fragment.ofBlock (fun code => some (.headers number code)) b with
  | error fault => simp [hread, Except.map] at h
  | ok f =>
    simp only [hread, Except.map, Except.ok.injEq] at h
    rw [← h]
    have hmark : ∀ code i, some (Mark.headers number code) ≠ some (.node i) :=
      fun code i heq => by cases heq
    exact ⟨f, (Fragment.denotes_toValue hmark hread).numbered number 0⟩

/-- A block that cannot be read leaves the document as it is and is reported. -/
theorem addBlock_of_error {number : Nat} {b : Block} {fault : FormatFault}
    (h : fragmentOf? number b = .error fault) (path : String) (document : Value) :
    (addBlock path number document b).document = document ∧
      errors (addBlock path number document b).notices =
        [.blockFailed path b.source (.format fault)] := by
  unfold fragmentOf? at h
  cases hread : Fragment.ofBlock (fun code => some (.headers number code)) b with
  | ok f => simp [hread, Except.map] at h
  | error fault' =>
    simp only [hread, Except.map, Except.error.injEq] at h
    simp only [addBlock, hread, errors_append, errors_notices, h, List.nil_append, true_and]
    rfl

/-- A block that can be read is merged, and if that does not fail nothing is reported. -/
theorem addBlock_of_ok {number : Nat} {b : Block} {v : Value}
    (h : fragmentOf? number b = .ok v) (path : String) (document : Value) :
    (addBlock path number document b).document = addFragment document v ∧
      ((add document (.array [v])).fault = none →
        errors (addBlock path number document b).notices = []) := by
  unfold fragmentOf? at h
  cases hread : Fragment.ofBlock (fun code => some (.headers number code)) b with
  | error fault => simp [hread, Except.map] at h
  | ok f =>
    simp only [hread, Except.map, Except.ok.injEq] at h
    simp only [addBlock, hread, h]
    refine ⟨rfl, fun hfault => ?_⟩
    rw [hfault, errors_append, errors_notices]
    rfl

/-- A block that cannot be read leaves the document as it is, and one that can be read is merged. -/
theorem addBlock_cases (path : String) (number : Nat) (document : Value) (b : Block) :
    (∃ fault, Fragment.ofBlock (fun code => some (.headers number code)) b = .error fault ∧
        (addBlock path number document b).document = document) ∨
      ∃ f v, Fragment.ofBlock (fun code => some (.headers number code)) b = .ok f ∧ f.Denotes v ∧
        (addBlock path number document b).document = addFragment document v := by
  cases hread : Fragment.ofBlock (fun code => some (.headers number code)) b with
  | error fault =>
    refine .inl ⟨fault, rfl, ?_⟩
    simp only [addBlock, hread]
  | ok f =>
    have hmark : ∀ code i, some (Mark.headers number code) ≠ some (.node i) :=
      fun code i heq => by cases heq
    refine .inr ⟨f, _, rfl, (Fragment.denotes_toValue hmark hread).numbered number 0, ?_⟩
    simp only [addBlock, hread]
    rfl

/-- An open document takes a fragment without a fault and stays open. -/
theorem Open.addFragment {entries : List (Atom × Value)} (h : Open entries) (m : Option Mark)
    {v : Value} (hv : ∃ f : Fragment, f.Denotes v) :
    (Document.add (.object m entries) (.array [v])).fault = none ∧
      ∃ entries', Document.addFragment (.object m entries) v = .object m entries' ∧
        Open entries' := by
  obtain ⟨f, hf⟩ := hv
  obtain ⟨entries', hadd, hopen⟩ := h.add m hf
  rw [Document.addFragment, hadd]
  exact ⟨rfl, entries', rfl, hopen⟩

/-- The run over blocks merges the fragments of those that can be read and reports the others. -/
theorem Open.runBlocks {entries : List (Atom × Value)} (h : Open entries) (m : Option Mark)
    (number : Nat) (blocks : List (String × Block)) :
    (Document.runBlocks number (.object m entries) blocks).document =
        (fragments number blocks).foldl Document.addFragment (.object m entries) ∧
      errors (Document.runBlocks number (.object m entries) blocks).notices =
        failures number blocks := by
  induction blocks generalizing number entries with
  | nil => exact ⟨rfl, rfl⟩
  | cons head blocks ih =>
    obtain ⟨path, b⟩ := head
    simp only [Document.runBlocks, fragments, failures, List.zipIdx_cons, errors_append]
    cases hread : fragmentOf? number b with
    | error fault =>
      obtain ⟨hdocument, herrors⟩ := addBlock_of_error hread path (.object m entries)
      rw [hdocument, herrors]
      simp only [List.filterMap_cons, hread, Except.toOption, List.singleton_append]
      exact ⟨(ih h (number + 1)).1, congrArg _ (ih h (number + 1)).2⟩
    | ok v =>
      obtain ⟨hfault, entries', hadd, hopen⟩ := h.addFragment m (fragmentOf?_denotes hread)
      obtain ⟨hdocument, herrors⟩ := addBlock_of_ok hread path (.object m entries)
      rw [herrors hfault, hdocument, hadd]
      simp only [List.filterMap_cons, hread, Except.toOption, List.nil_append, List.foldl_cons,
        hadd]
      exact ih hopen (number + 1)

/-- Fragments are merged into an open document one after another, each without a fault. -/
theorem Open.foldl {entries : List (Atom × Value)} (h : Open entries) (m : Option Mark)
    {values : List Value} (hvalues : ∀ v ∈ values, ∃ f : Fragment, f.Denotes v) :
    ∃ entries', values.foldl Document.addFragment (.object m entries) = .object m entries' ∧
      Open entries' := by
  induction values generalizing entries with
  | nil => exact ⟨entries, rfl, h⟩
  | cons v values ih =>
    obtain ⟨hv, hrest⟩ := List.forall_mem_cons.1 hvalues
    obtain ⟨-, entries', hadd, hopen⟩ := h.addFragment m hv
    rw [List.foldl_cons, hadd]
    exact ih hopen hrest

/-- What blocks add is written from fragments. -/
theorem fragments_denote (number : Nat) (blocks : List (String × Block)) :
    ∀ v ∈ fragments number blocks, ∃ f : Fragment, f.Denotes v := by
  intro v hv
  obtain ⟨⟨⟨path, b⟩, i⟩, -, hread⟩ := List.mem_filterMap.1 hv
  simp only at hread
  cases hfragment : fragmentOf? i b with
  | error fault => simp [hfragment, Except.toOption] at hread
  | ok w =>
    simp only [hfragment, Except.toOption, Option.some.injEq] at hread
    rw [← hread]
    exact fragmentOf?_denotes hfragment

end Document

/-! ## Documents of source files -/

open Document

/-- The source texts in places of a tree, each with its path. -/
def FileTree.sources (tree : FileTree) (places : List (List String)) : List (String × List Char) :=
  places.map fun place => ((Path.ofPlace place).text, tree.sourceText place)

/-- What is made of source files is made by the run over their tagged blocks. -/
theorem Options.generate_eq_runBlocks (tree : FileTree) (options : Options)
    {places : List (List String)} (hglob : tree.glob options.basedir options.files = .ok places)
    {start : Value} (hstart : ofSeed (.map options.definition) = .ok start) :
    (options.generate tree).document =
        .ok (runBlocks 0 start (blocksOf (tree.sources places))).document ∧
      errors (options.generate tree).notices =
        errors (runBlocks 0 start (blocksOf (tree.sources places))).notices := by
  have hwarnings : ∀ keys : List String, errors (keys.map .deprecatedProperty) = [] :=
    fun keys => errors_eq_nil (List.forall_mem_map.2 fun _ _ => nofun)
  have hfound : errors [.filesFound places.length] = [] := rfl
  rw [← addSources_document, ← addSources_errors]
  simp only [Options.generate, hstart, hglob, errors_append, hwarnings, hfound, List.nil_append]
  exact ⟨rfl, rfl⟩

/-- If the paths, groups and definitions of the seed have the shapes of these sections, then the
document of source files is that of the seed with the fragments of exactly those tagged blocks
merged in that can be read, in order. Every intermediate document is that of the blocks so far, no
merge fails, a block that cannot be read leaves the document as it was, and each such block is
reported once. -/
theorem Options.generate_eq_foldl_fragments (tree : FileTree) (options : Options)
    {places : List (List String)} (hglob : tree.glob options.basedir options.files = .ok places)
    (hread : (Value.map options.definition).IsRead)
    (hshape : HasShape (.map options.definition)) :
    ∃ start, ofSeed (.map options.definition) = .ok start ∧
      (options.generate tree).document =
        .ok ((fragments 0 (blocksOf (tree.sources places))).foldl addFragment start) ∧
      (∀ before after, blocksOf (tree.sources places) = before ++ after →
        (runBlocks 0 start before).document = (fragments 0 before).foldl addFragment start) ∧
      (∀ before v after, fragments 0 (blocksOf (tree.sources places)) = before ++ v :: after →
        (add (before.foldl addFragment start) (.array [v])).fault = none) ∧
      (∀ before path b after fault,
        blocksOf (tree.sources places) = before ++ (path, b) :: after →
        fragmentOf? before.length b = .error fault →
        (runBlocks 0 start (before ++ [(path, b)])).document =
          (runBlocks 0 start before).document) ∧
      errors (options.generate tree).notices = failures 0 (blocksOf (tree.sources places)) := by
  obtain ⟨entries, hseed⟩ := ofSeed_object none options.definition
  have hopen : Open entries := ofSeed_open hread hshape hseed
  obtain ⟨hdocument, herrors⟩ := generate_eq_runBlocks tree options hglob hseed
  refine ⟨.object none entries, hseed, ?_, ?_, ?_, ?_, ?_⟩
  · rw [hdocument, (hopen.runBlocks none 0 _).1]
  · exact fun before _ _ => (hopen.runBlocks none 0 before).1
  · intro before v after heq
    have hall := fragments_denote 0 (blocksOf (tree.sources places))
    rw [heq, List.forall_mem_append, List.forall_mem_cons] at hall
    obtain ⟨entries', hfold, hopen'⟩ := hopen.foldl none hall.1
    rw [hfold]
    exact (hopen'.addFragment none hall.2.1).1
  · intro before path b after fault _ hfault
    rw [runBlocks_append, Nat.zero_add]
    exact (addBlock_of_error hfault path _).1
  · rw [herrors, (hopen.runBlocks none 0 _).2]

/-- A file with three blocks, the second of which cannot be read: its definition has no name. -/
def petsTree : FileTree :=
  ⟨[(["pets.js"],
    .file "/** @route GET /pets */ /** @typedef {object} */ /** @route GET /dogs */".toUTF8)], []⟩

/-- Options whose paths and definitions are one object. -/
def petsOptions : Options where
  definition := sharedSections
  files := ["*.js"]
  basedir := ⟨.here, []⟩
  route := {}

/-- Options with an empty seed. -/
def blankOptions : Options where
  definition := []
  files := ["*.js"]
  basedir := ⟨.here, []⟩
  route := {}

/-- Paths and definitions that are one object have the shape of a document. -/
theorem petsOptions_shaped : HasShape (.map petsOptions.definition) := by
  refine ⟨?_, ?_, ?_⟩
  · intro v hv
    cases hv
    decide
  · intro v hv
    cases hv
  · intro v hv
    cases hv
    decide

/-- Two fragments are merged, and the block between them is reported. -/
theorem Options.generate_eq_foldl_fragments_petsOptions :
    petsTree.glob petsOptions.basedir petsOptions.files = .ok [["pets.js"]] ∧
      (∃ start, ofSeed (.map petsOptions.definition) = .ok start ∧
        (petsOptions.generate petsTree).document =
          .ok ((fragments 0 (blocksOf (petsTree.sources [["pets.js"]]))).foldl addFragment start)) ∧
      (fragments 0 (blocksOf (petsTree.sources [["pets.js"]]))).length = 2 ∧
      (errors (petsOptions.generate petsTree).notices).length = 1 := by
  have hglob : petsTree.glob petsOptions.basedir petsOptions.files = .ok [["pets.js"]] := by
    decide +kernel
  obtain ⟨start, hstart, hdocument, -, -, -, herrors⟩ :=
    generate_eq_foldl_fragments petsTree petsOptions hglob sharedSections_isRead petsOptions_shaped
  refine ⟨hglob, ⟨start, hstart, hdocument⟩, by decide +kernel, ?_⟩
  rw [herrors]
  decide +kernel

end ApiDoc
