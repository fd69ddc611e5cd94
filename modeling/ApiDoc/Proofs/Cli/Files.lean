import ApiDoc.Cli.Run
import ApiDoc.Proofs.Except
import ApiDoc.Proofs.Text.Split

/-!
# Files before and after a run

A run that does not end well leaves every file as it was, and makes none: whatever goes wrong goes
wrong before the document is written. All that it may leave behind are directories on the way to
the output. A run of `generate` that ends well leaves the text of the document in the output, and
every other file as it was: `files_of_run`.
-/

namespace ApiDoc

namespace FileTree

variable {tree tree' tree'' : FileTree} {place target : List String} {entry : FileEntry}

/-! ## What is in a place after a change -/

/-- What was put in a place is there. -/
theorem entry?_put_self (h : target ≠ []) (tree : FileTree) (entry : FileEntry) :
    entry? (tree.put target entry) target = some entry := by
  have hnone : (tree.entries.filter fun e => e.1 != target).find? (fun e => e.1 == target) =
      none := by simp
  unfold entry?
  rw [if_neg (by simpa using h), put]
  simp [List.find?_append, hnone]

/-- Putting something in one place leaves every other. -/
theorem entry?_put_of_ne (h : place ≠ target) (tree : FileTree) (entry : FileEntry) :
    entry? (tree.put target entry) place = tree.entry? place := by
  have hfind : (tree.entries.filter fun e => e.1 != target).find? (fun e => e.1 == place) =
      tree.entries.find? fun e => e.1 == place := by
    rw [List.find?_filter]
    congr 1
    funext e
    by_cases he : e.1 = place
    · simp [he, h]
    · simp [he]
  unfold entry?
  split
  · rfl
  · simp [put, List.find?_append, hfind, h.symm]

/-- Putting something in one place leaves which other places are directories. -/
theorem isDirectory_put_of_ne (h : place ≠ target) (tree : FileTree) (entry : FileEntry) :
    (tree.put target entry).isDirectory place = tree.isDirectory place := by
  rw [isDirectory, isDirectory, entry?_put_of_ne h]

/-! ## More directories, the same files -/

/-- Two trees have the same files with the same contents. -/
def SameFiles (tree tree' : FileTree) : Prop :=
  ∀ place content, tree'.entry? place = some (.file content) ↔
    tree.entry? place = some (.file content)

/-- Two trees have the same files apart from one place. -/
def SameFilesBut (target : List String) (tree tree' : FileTree) : Prop :=
  ∀ place, place ≠ target → ∀ content, tree'.entry? place = some (.file content) ↔
    tree.entry? place = some (.file content)

/-- A tree with directories in places where there was nothing, and nothing else that is new. -/
structure AddsDirectories (tree tree' : FileTree) : Prop where
  here : tree'.here = tree.here
  entries : ∀ place, tree'.entry? place = tree.entry? place ∨
    tree.entry? place = none ∧ tree'.entry? place = some .directory

/-- A tree with nothing new. -/
theorem AddsDirectories.refl (tree : FileTree) : AddsDirectories tree tree :=
  ⟨rfl, fun _ => .inl rfl⟩

/-- Directories that are added one after another. -/
theorem AddsDirectories.trans (h : AddsDirectories tree tree') (h' : AddsDirectories tree' tree'') :
    AddsDirectories tree tree'' := by
  refine ⟨h'.here.trans h.here, fun place => ?_⟩
  rcases h'.entries place with heq' | ⟨hnone, hnew⟩
  · rw [heq']
    exact h.entries place
  · rcases h.entries place with heq | ⟨_, hdirectory⟩
    · exact .inr ⟨heq ▸ hnone, hnew⟩
    · rw [hnone] at hdirectory
      cases hdirectory

/-- Where only directories are added the files stay. -/
theorem AddsDirectories.sameFiles (h : AddsDirectories tree tree') : SameFiles tree tree' := by
  intro place content
  rcases h.entries place with heq | ⟨hnone, hnew⟩
  · rw [heq]
  · simp [hnone, hnew]

/-- A directory in a place where there was nothing. -/
theorem addsDirectories_put (h : tree.entry? target = none) :
    AddsDirectories tree (tree.put target .directory) := by
  have hne : target ≠ [] := by
    rintro rfl
    cases h
  refine ⟨rfl, fun place => ?_⟩
  by_cases hplace : place = target
  · subst hplace
    exact .inr ⟨h, entry?_put_self hne tree .directory⟩
  · exact .inl (entry?_put_of_ne hplace tree .directory)

/-- Making a directory with its parents adds directories only. -/
theorem makeDirectory_addsDirectories {p : Path} (h : tree.makeDirectory p = .ok tree') :
    AddsDirectories tree tree' := by
  obtain ⟨place, -, h⟩ := exists_of_bind_eq_ok h
  obtain ⟨-, h⟩ := eq_ok_of_check h
  split at h
  · cases h
  · next name _ =>
    obtain ⟨-, h⟩ := eq_ok_of_check h
    obtain ⟨hfree, h⟩ := eq_ok_of_check h
    obtain rfl := Except.ok.inj h
    simp only [Bool.or_eq_true, not_or, Option.not_isSome_iff_eq_none] at hfree
    exact addsDirectories_put hfree.2

/-- Making sure of a directory adds directories only. -/
theorem ensureDirectory_addsDirectories {p : Path} (h : tree.ensureDirectory p = .ok tree') :
    AddsDirectories tree tree' := by
  unfold ensureDirectory at h
  split at h
  · next hmake =>
    cases h
    exact makeDirectory_addsDirectories hmake
  · split at h
    · split at h
      · cases h
        exact .refl tree
      · cases h
    · cases h

/-- Directories along a path, made or not, are all that is new. -/
theorem makeDirectories_addsDirectories (tree : FileTree) (anchor : Anchor) (parts : List String) :
    AddsDirectories tree (tree.makeDirectories anchor parts).1 := by
  induction parts with
  | nil => exact .refl tree
  | cons part above ih =>
    rw [makeDirectories]
    split
    · next hensure => exact ensureDirectory_addsDirectories hensure
    · split
      · next hmake =>
        rw [hmake] at ih
        exact ih
      · next hmake =>
        rw [hmake] at ih
        split
        · next hensure => exact ih.trans (ensureDirectory_addsDirectories hensure)
        · exact ih
    · exact .refl tree

/-! ## Writing a file -/

/-- A file that is written stands under the last component of its path, in a directory that the
other components lead to. -/
theorem exists_of_write {p : Path} {content : ByteArray} (h : tree.write p content = .ok tree') :
    ∃ place name, tree.locate p.parent = .ok place ∧ p.parts.getLast? = some name ∧
      isBadName name = false ∧ name ≠ ".." ∧ tree.isDirectory place = true ∧
      tree.isDirectory (place ++ [name]) = false ∧
      tree' = tree.put (place ++ [name]) (.file content) := by
  obtain ⟨place, hplace, h⟩ := exists_of_bind_eq_ok h
  obtain ⟨hdirectory, h⟩ := eq_ok_of_check h
  split at h
  · cases h
  · next name hname =>
    obtain ⟨hgood, h⟩ := eq_ok_of_check h
    obtain ⟨hfree, h⟩ := eq_ok_of_check h
    obtain rfl := Except.ok.inj h
    simp only [Bool.or_eq_true, beq_iff_eq, not_or, Bool.not_eq_true] at hfree
    exact ⟨place, name, hplace, hname, by simpa using hgood, hfree.1, by simpa using hdirectory,
      hfree.2, rfl⟩

/-- A walk along two paths in a row goes on from where the first one leads. -/
theorem walk_append {parts : List String} (h : tree.walk place parts = .ok target)
    (more : List String) : tree.walk place (parts ++ more) = tree.walk target more := by
  induction parts generalizing place with
  | nil =>
    cases h
    rfl
  | cons part parts ih =>
    rw [List.cons_append, walk]
    rw [walk] at h
    split at h
    · cases h
    · next hdirectory =>
      rw [if_neg hdirectory]
      split at h
      · next hdot => rw [if_pos hdot, ih h]
      · next hdot =>
        rw [if_neg hdot]
        split at h
        · next hup => rw [if_pos hup, ih h]
        · next hup =>
          rw [if_neg hup]
          split at h
          · cases h
          · next hthere => rw [if_neg hthere, ih h]

/-- A change in a place that is no directory does not change where paths lead to. -/
theorem walk_put (hfree : tree.isDirectory target = false) (entry : FileEntry)
    {parts : List String} {last : List String} (h : tree.walk place parts = .ok last) :
    (tree.put target entry).walk place parts = .ok last := by
  have hroot : target ≠ [] := by
    rintro rfl
    cases hfree
  induction parts generalizing place with
  | nil => exact h
  | cons part parts ih =>
    rw [walk] at h ⊢
    split at h
    · cases h
    · next hdirectory =>
      -- the way leads through directories only, so not through the place that changes
      have hne : place ≠ target := by
        rintro rfl
        rw [hfree] at hdirectory
        exact hdirectory rfl
      rw [isDirectory_put_of_ne hne, if_neg hdirectory]
      split at h
      · next hdot => rw [if_pos hdot, ih h]
      · next hdot =>
        rw [if_neg hdot]
        split at h
        · next hup => rw [if_pos hup, ih h]
        · next hup =>
          rw [if_neg hup]
          split at h
          · cases h
          · next hthere =>
            have hthere' : entry? (tree.put target entry) (place ++ [part]) ≠ none := by
              by_cases heq : place ++ [part] = target
              · rw [heq, entry?_put_self hroot]
                exact Option.some_ne_none entry
              · rw [entry?_put_of_ne heq]
                exact fun hnone => hthere (Option.isNone_iff_eq_none.2 hnone)
            rw [if_neg fun hnone => hthere' (Option.isNone_iff_eq_none.1 hnone), ih h]

/-- A file that is written can be read, and all other files stay as they are. -/
theorem read_of_write {p : Path} {content : ByteArray} (h : tree.write p content = .ok tree')
    (hparts : ∀ part ∈ p.parts, part ≠ "" ∧ part ≠ ".") :
    tree'.read p = .ok content ∧
      ∃ place, tree'.locate p = .ok place ∧ SameFilesBut place tree tree' := by
  obtain ⟨place, name, hplace, hname, hgood, hup, hdirectory, hfree, rfl⟩ := exists_of_write h
  have hsplit : p.parts = p.parent.parts ++ [name] :=
    (List.dropLast_append_getLast? name hname).symm
  obtain ⟨hempty, hdot⟩ := hparts name (List.mem_of_getLast? hname)
  have hne : place ++ [name] ≠ [] := by simp
  unfold locate at hplace
  split at hplace
  · cases hplace
  · next hbad =>
    -- the place was no directory, so the walk to the parent did not pass it and goes as before
    have hlocate : (tree.put (place ++ [name]) (.file content)).locate p =
        .ok (place ++ [name]) := by
      have hlast : place ≠ place ++ [name] := by simp
      have hbad' : ¬ p.parts.any isBadName = true := by
        rw [hsplit, List.any_append]
        simpa [hgood] using hbad
      have hwalk : (tree.put (place ++ [name]) (.file content)).walk
          ((tree.put (place ++ [name]) (.file content)).start p) p.parent.parts = .ok place :=
        walk_put hfree (.file content) hplace
      rw [locate, if_neg hbad', hsplit, walk_append hwalk, walk, isDirectory_put_of_ne hlast,
        hdirectory]
      simp [hempty, hdot, hup, entry?_put_self hne, walk]
    refine ⟨?_, _, hlocate, fun other hother content => ?_⟩
    · rw [read, hlocate]
      simp only [bind, Except.bind, entry?_put_self hne]
      rfl
    · rw [entry?_put_of_ne hother]

end FileTree

/-- The components of a text are neither empty nor `.`. -/
theorem Path.parts_ofText (s : String) :
    ∀ part ∈ (Path.ofText s).parts, part ≠ "" ∧ part ≠ "." := by
  intro part hpart
  obtain ⟨c, hc, rfl⟩ := List.mem_map.1 hpart
  have hkept := (List.mem_filter.1 hc).2
  constructor
  · rintro heq
    rw [← String.toList_inj, String.toList_ofList] at heq
    simp [heq] at hkept
  · rintro heq
    rw [← String.toList_inj, String.toList_ofList] at heq
    simp [heq] at hkept

namespace Cli

open FileTree

variable {tree : FileTree}

/-! ## Where the output is -/

/-- The output of `generate` is the path of an argument. -/
theorem exists_of_readGenerate {args : List String} {config output : Path} {format : Format}
    (h : readGenerate tree args = .ok (.generate config output format)) :
    ∃ name, output = Path.ofText name := by
  obtain ⟨d, -, h⟩ := exists_of_bind_eq_ok h
  obtain ⟨-, -, h⟩ := exists_of_bind_eq_ok h
  obtain ⟨_, -, h⟩ := exists_of_bind_eq_ok h
  obtain ⟨given, houtput, h⟩ := exists_of_bind_eq_ok h
  cases given with
  | none => cases h
  | some p =>
    obtain ⟨-, -, h⟩ := exists_of_bind_eq_ok h
    obtain ⟨_, -, h⟩ := exists_of_bind_eq_ok h
    cases h
    unfold readOutput at houtput
    split at houtput
    · cases houtput
    · next name _ =>
      split at houtput
      · cases houtput
      · exact ⟨name, (Option.some.inj (Except.ok.inj houtput)).symm⟩

/-- Arguments of `check` are never read as those of `generate`. -/
theorem readCheck_ne_generate {args : List String} {config output : Path} {format : Format} :
    readCheck tree args ≠ .ok (.generate config output format) := by
  intro h
  obtain ⟨d, -, h⟩ := exists_of_bind_eq_ok h
  obtain ⟨p, -, h⟩ := exists_of_bind_eq_ok h
  obtain ⟨-, -, h⟩ := exists_of_bind_eq_ok h
  cases h

/-- The output of `generate` is given by a text. -/
theorem exists_output {args : List String} {verbose : Bool} {config output : Path} {format : Format}
    (h : Invocation.ofArguments tree args = .ok ⟨verbose, .generate config output format⟩) :
    ∃ name, output = Path.ofText name := by
  unfold Invocation.ofArguments at h
  obtain ⟨-, h⟩ := eq_ok_of_check h
  obtain ⟨d, -, h⟩ := exists_of_bind_eq_ok h
  split at h
  · cases h
  · obtain ⟨command, hcommand, h⟩ := exists_of_bind_eq_ok h
    cases h
    unfold readCommand at hcommand
    split at hcommand
    · exact exists_of_readGenerate hcommand
    · exact absurd hcommand readCheck_ne_generate
    · obtain ⟨_, -, h⟩ := exists_of_bind_eq_ok hcommand
      cases h

/-! ## How a run ends -/

/-- A run that ends well has written a text to the output, after making its directory. -/
structure Saved (tree : FileTree) (output : Path) (text : List Char) (o : Outcome) : Prop where
  exitCode : o.exitCode = 0
  broken : o.broken = none
  written : ∃ between, AddsDirectories tree between ∧
    between.write output (String.ofList text).toUTF8 = .ok o.tree

/-- A run that ends otherwise has at most made directories. -/
structure Failed (tree : FileTree) (o : Outcome) : Prop where
  exitCode : o.exitCode ≠ 0
  adds : AddsDirectories tree o.tree

/-- A run that ends with a fault, after directories were added at most. -/
theorem failed_ofFault {tree' : FileTree} (h : AddsDirectories tree tree') (fault : RunFault) :
    Failed tree (.ofFault tree' fault) := ⟨Nat.one_ne_zero, h⟩

/-- A run that could not load its input has changed nothing. -/
theorem failed_ofLoadFault (tree : FileTree) (fault : LoadFault) :
    Failed tree (.ofLoadFault tree fault) := by
  unfold Outcome.ofLoadFault
  split
  · exact ⟨Nat.one_ne_zero, .refl tree⟩
  · exact failed_ofFault (.refl tree) _

/-- A run has failed whatever was printed before. -/
theorem Failed.after {o : Outcome} (h : Failed tree o) (stdout : String) (notices : List Notice) :
    Failed tree (o.after stdout notices) := ⟨h.exitCode, h.adds⟩

/-- A run has saved its text whatever was printed before. -/
theorem Saved.after {output : Path} {text : List Char} {o : Outcome}
    (h : Saved tree output text o) (stdout : String) (notices : List Notice) :
    Saved tree output text (o.after stdout notices) := ⟨h.exitCode, h.broken, h.written⟩

/-- Making the directory and writing the document come before the file is touched. -/
theorem save_cases (tree : FileTree) (document : Value) (output : Path) (format : Format) :
    Failed tree (save tree document output format) ∨
      ∃ text, format.write document = .ok text ∧
        Saved tree output text (save tree document output format) := by
  have hadds :=
    makeDirectories_addsDirectories tree output.parent.anchor output.parent.parts.reverse
  unfold save
  split
  · next hmake =>
    rw [hmake] at hadds
    exact .inl (failed_ofFault hadds _)
  · next hmake =>
    rw [hmake] at hadds
    split
    · exact .inl (failed_ofFault hadds _)
    · next text htext =>
      split
      · exact .inl (failed_ofFault hadds _)
      · next hwrite => exact .inr ⟨text, htext, rfl, rfl, _, hadds, hwrite⟩

/-- A document of the options in a file, as it is written in a format. -/
def IsDocumentText (tree : FileTree) (config : Path) (format : Format) (text : List Char) : Prop :=
  ∃ options document, Options.load tree config = .ok options ∧
    (options.generate tree).document = .ok document ∧ format.write document = .ok text

/-- A run of `generate` fails, or saves the text of a document. -/
theorem runGenerate_cases (tree : FileTree) (config output : Path) (format : Format) :
    Failed tree (runGenerate tree config output format) ∨
      ∃ text, IsDocumentText tree config format text ∧
        Saved tree output text (runGenerate tree config output format) := by
  unfold runGenerate
  split
  · exact .inl (failed_ofLoadFault tree _)
  · next options hoptions =>
    dsimp only
    split
    · exact .inl ((failed_ofFault (.refl tree) _).after _ _)
    · next document hdocument =>
      split
      · exact .inl ((failed_ofFault (.refl tree) _).after _ _)
      · rcases save_cases tree document output format with hfailed | ⟨text, htext, hsaved⟩
        · exact .inl ((hfailed.after _ _).after _ _)
        · exact .inr ⟨text, ⟨options, document, hoptions, hdocument, htext⟩,
            (hsaved.after _ _).after _ _⟩

/-- A run with wrong arguments leaves the tree. -/
theorem tree_ofUsage (tree : FileTree) (fault : UsageFault) :
    (Outcome.ofUsage tree fault).tree = tree := by
  cases fault <;> rfl

/-- A check leaves the tree. -/
theorem tree_runCheck (tree : FileTree) (document : Path) :
    (runCheck tree document).tree = tree := by
  unfold runCheck
  split
  · unfold Outcome.ofLoadFault
    split <;> rfl
  · split <;> rfl

/-- Equal trees have the same files. -/
theorem sameFiles_of_tree_eq {tree' : FileTree} (h : tree' = tree) : SameFiles tree tree' :=
  fun _ _ => by rw [h]

/-- What a run of `generate` leaves, once it is known what it has written. -/
theorem Saved.files {name : String} {text : List Char} {o : Outcome}
    (h : Saved tree (Path.ofText name) text o) :
    o.tree.read (Path.ofText name) = .ok (String.ofList text).toUTF8 ∧
      ∃ place, o.tree.locate (Path.ofText name) = .ok place ∧ SameFilesBut place tree o.tree := by
  obtain ⟨between, hadds, hwrite⟩ := h.written
  obtain ⟨hread, place, hlocate, hsame⟩ := read_of_write hwrite (Path.parts_ofText name)
  refine ⟨hread, place, hlocate, fun other hother content => ?_⟩
  exact (hsame other hother content).trans (hadds.sameFiles other content)

/-- A run that ends with a fault or a code other than zero leaves all files as they are, and makes
none. A run of `generate` that ends well leaves the text of the document in the output, and every
other file as it is. -/
theorem files_of_run (tree : FileTree) (args : List String) :
    ((run tree args).exitCode ≠ 0 ∨ (run tree args).broken.isSome →
      SameFiles tree (run tree args).tree) ∧
    ∀ verbose config output format,
      Invocation.ofArguments tree args = .ok ⟨verbose, .generate config output format⟩ →
      (run tree args).exitCode = 0 →
        ∃ text place, IsDocumentText tree config format text ∧
          (run tree args).tree.read output = .ok (String.ofList text).toUTF8 ∧
          (run tree args).tree.locate output = .ok place ∧
          SameFilesBut place tree (run tree args).tree := by
  unfold run
  split
  · next fault hfault =>
    exact ⟨fun _ => sameFiles_of_tree_eq (tree_ofUsage tree fault), fun _ _ _ _ h => by
      rw [hfault] at h
      cases h⟩
  · next invocation hinvocation =>
    obtain ⟨verbose, command⟩ := invocation
    cases command with
    | check document =>
      exact ⟨fun _ => sameFiles_of_tree_eq (tree_runCheck tree document), fun _ _ _ _ h => by
        rw [hinvocation] at h
        cases h⟩
    | generate config output format =>
      obtain ⟨name, rfl⟩ := exists_output hinvocation
      -- both halves follow from how the run ended, whatever it printed
      rcases runGenerate_cases tree config (Path.ofText name) format with
        hfailed | ⟨text, htext, hsaved⟩
      · exact ⟨fun _ => hfailed.adds.sameFiles, fun _ _ _ _ _ h => absurd h hfailed.exitCode⟩
      · constructor
        · rintro (hcode | hbroken)
          · exact absurd hsaved.exitCode hcode
          · rw [hsaved.broken] at hbroken
            cases hbroken
        · intro _ _ _ _ h _
          rw [hinvocation] at h
          cases h
          obtain ⟨hread, place, hlocate, hsame⟩ := hsaved.files
          exact ⟨text, place, htext, hread, hlocate, hsame⟩

/-- A tree with the options of a document. -/
def configTree : FileTree where
  entries :=
    [(["config"], .file "\x7bswaggerDefinition: \x7b\x7d, files: [], basedir: .\x7d".toUTF8)]
  here := []

/-- A run that fails at the last step, behind a directory that it has made, and one that ends
well. -/
theorem files_of_run_configTree :
    let failed := run configTree ["generate", "config", "-o", "new/.."]
    let saved := run configTree ["generate", "config", "-o", "new/doc"]
    (failed.exitCode = 1 ∧ failed.tree.isDirectory ["new"] = true ∧
      SameFiles configTree failed.tree) ∧
    saved.exitCode = 0 ∧ ∃ text, IsDocumentText configTree (Path.ofText "config") .json text ∧
      saved.tree.read (Path.ofText "new/doc") = .ok (String.ofList text).toUTF8 := by
  intro failed saved
  have hfailed : failed.exitCode = 1 := by decide +kernel
  have hsaved : saved.exitCode = 0 := by decide +kernel
  have hinvocation : Invocation.ofArguments configTree ["generate", "config", "-o", "new/doc"] =
      .ok ⟨false, .generate (Path.ofText "config") (Path.ofText "new/doc") .json⟩ :=
    eq_ok_of_toOption (by decide +kernel)
  have hsame : SameFiles configTree failed.tree :=
    (files_of_run configTree ["generate", "config", "-o", "new/.."]).1
      (.inl (hfailed ▸ Nat.one_ne_zero))
  obtain ⟨text, -, htext, hread, -⟩ :=
    (files_of_run configTree ["generate", "config", "-o", "new/doc"]).2 _ _ _ _ hinvocation hsaved
  exact ⟨⟨hfailed, by decide +kernel, hsame⟩, hsaved, text, htext, hread⟩

end Cli

end ApiDoc
