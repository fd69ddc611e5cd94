import ApiDoc.Cli.Run
import ApiDoc.Proofs.Text.Utf8
import ApiDoc.Proofs.Yaml.Building

/-!
# Checking a document that was written

The command `check` reads a document as YAML. What was written as JSON is such a text too, but not
every one can be read: a character that YAML has no place for is written as itself, a key may be too
long for a key, and a line of a text may look like the mark of a document. Main statement: `check`
reports the deprecated keys of a written document just if the document is readable
(`check_written_iff`).
-/

namespace ApiDoc.Cli

/-- What `check` prints about names. -/
def reportText (names : List String) : String :=
  if names = [] then "No deprecated properties found.\n"
  else
    String.join (names.map fun name => "  deprecated property: " ++ name ++ "\n") ++
      "Found " ++ toString names.length ++ " deprecated properties.\n"

/-- A run that reports names, in order, and ends with a fault just if there are any. -/
structure Reports (o : Outcome) (names : List String) : Prop where
  stdout : o.stdout = reportText names
  stderr : o.stderr = ""
  exitCode : o.exitCode = if names = [] then 0 else 1
  broken : o.broken = none

variable {tree : FileTree} {p : Path} {d v : Value} {text : List Char} {o o' : Outcome}
  {names : List String}

/-- There is always something that is printed. -/
theorem reportText_ne (names : List String) : reportText names ≠ "" := by
  unfold reportText
  split
  · decide
  · intro h
    have hlength := congrArg String.length h
    rw [String.length_append] at hlength
    exact absurd (Nat.eq_zero_of_add_eq_zero_left hlength) (by decide)

/-- What a run prints and how it ends, without its notices. -/
structure SameEnd (o o' : Outcome) : Prop where
  stdout : o.stdout = o'.stdout
  stderr : o.stderr = o'.stderr
  exitCode : o.exitCode = o'.exitCode
  broken : o.broken = o'.broken

/-- A report is seen by what is printed and by how the run ends. -/
theorem Reports.sameEnd (h : Reports o names) (hsame : SameEnd o' o) : Reports o' names :=
  ⟨hsame.stdout.trans h.stdout, hsame.stderr.trans h.stderr, hsame.exitCode.trans h.exitCode,
    hsame.broken.trans h.broken⟩

/-- A run with the arguments of `check` prints and ends as the check does. -/
theorem sameEnd_run {args : List String} {verbose : Bool}
    (h : Invocation.ofArguments tree args = .ok ⟨verbose, .check p⟩) :
    SameEnd (run tree args) (runCheck tree p) := by
  rw [run, h]
  exact ⟨rfl, rfl, rfl, rfl⟩

/-- A document that is read is reported by its deprecated keys. -/
theorem reports_runCheck (h : tree.readYaml p = .ok v) :
    Reports (runCheck tree p) (Document.deprecatedNames true v) := by
  rw [runCheck, h]
  cases hnames : Document.deprecatedNames true v with
  | nil =>
    simp only [hnames]
    exact ⟨rfl, rfl, rfl, rfl⟩
  | cons name names =>
    simp only [hnames]
    exact ⟨rfl, rfl, rfl, rfl⟩

/-- The text of a document that was written is read from its bytes. -/
theorem readYaml_write (hd : d.IsDocument) (ht : Format.json.write d = .ok text)
    (hread : tree.read p = .ok (String.ofList text).toUTF8) :
    tree.readYaml p = (Yaml.read text).mapError (.unreadable p.text) := by
  have hlines : Text.lineFeeds text = text :=
    Text.lineFeeds_eq_self (Yaml.carriageReturn_not_mem_write hd ht)
  rw [FileTree.readYaml, hread]
  simp only [Text.decodeStrict?_ofList, hlines]
  cases Yaml.read text <;> rfl

/-- What a run that ends with a message says starts with it. -/
theorem prefix_stderr_ofMessage (tree : FileTree) (message : String) :
    ("Error: " ++ message).toList <+: (Outcome.ofMessage tree message).stderr.toList :=
  ⟨"\n".toList, String.toList_append.symm⟩

/-- A document has a JSON text. A run of `check` on a file with this text reports the deprecated
keys of the document just if the document is readable; on any other it ends with a message that
starts with the name of the file. -/
theorem check_written_iff (hd : d.IsDocument) :
    ∃ text, Format.json.write d = .ok text ∧
      ∀ tree args verbose p, Invocation.ofArguments tree args = .ok ⟨verbose, .check p⟩ →
        tree.read p = .ok (String.ofList text).toUTF8 →
          (Reports (run tree args) (Document.deprecatedNames true d) ↔
            Yaml.isReadable d = true) ∧
          (Yaml.isReadable d = false → (run tree args).exitCode = 1 ∧
            (run tree args).stdout = "" ∧
            ("Error: Cannot parse " ++ p.text).toList <+: (run tree args).stderr.toList) := by
  obtain ⟨t, ht⟩ := Json.exists_valueText hd 0
  have hwrite : Format.json.write d = .ok (t ++ ['\n']) := by
    rw [Format.write, Json.write, ht]
    rfl
  obtain ⟨hreadable, hunreadable⟩ := Yaml.read_write hd hwrite
  refine ⟨_, hwrite, fun tree args verbose p hargs hfile => ?_⟩
  have hsame := sameEnd_run hargs
  have hyaml := readYaml_write hd hwrite hfile
  -- what is read has the outline of the document, and the search sees no more than that
  cases hd' : Yaml.isReadable d with
  | true =>
    obtain ⟨v, hv, houtline⟩ := hreadable hd'
    rw [hv] at hyaml
    have hreports := (reports_runCheck hyaml).sameEnd hsame
    rw [Document.deprecatedNames_eq_of_outline houtline] at hreports
    exact ⟨iff_of_true hreports rfl, fun hbad => by cases hbad⟩
  | false =>
    rw [hunreadable hd'] at hyaml
    have hend : runCheck tree p = .ofMessage tree ("Cannot parse " ++ p.text) := by
      rw [runCheck, hyaml]
      rfl
    rw [hend] at hsame
    have hmessage :
        ("Error: Cannot parse " ++ p.text).toList <+: (run tree args).stderr.toList := by
      rw [hsame.stderr]
      exact prefix_stderr_ofMessage tree ("Cannot parse " ++ p.text)
    refine ⟨iff_of_false (fun hreports => ?_) (by decide), fun _ =>
      ⟨hsame.exitCode, hsame.stdout, hmessage⟩⟩
    exact reportText_ne _ (hreports.stdout.symm.trans hsame.stdout)

/-- A tree with one file. -/
def treeOfText (text : String) : FileTree where
  entries := [(["doc"], .file text.toUTF8)]
  here := []

/-- A document with deprecated keys among others, and a text with a line that looks like a mark. -/
def singularDocument : Value :=
  .map [(.text "tag", .array [.map [(.text "deprecated", .bool true),
    (.text "path", .text "é\n---\n")]]), (.text "properties", .map [(.text "tag", .null)])]

/-- The text of the document. -/
def singularText : String :=
  "\x7b\n  \"tag\": [\n    \x7b\n      \"deprecated\": true,\n      \"path\": \"é\\n---\\n\"\n" ++
    "    \x7d\n  ],\n  \"properties\": \x7b\n    \"tag\": null\n  \x7d\n\x7d\n"

/-- The document with deprecated keys is one that can be written. -/
theorem isDocument_singularDocument : singularDocument.IsDocument := by
  have hnull : Value.null.IsDocument := .bare trivial rfl
  have hflag : (Value.bool true).IsDocument := .bare trivial rfl
  refine .object none (by simp) (by decide) ?_
  simp only [List.forall_mem_cons, List.not_mem_nil, false_implies, implies_true, and_true]
  refine ⟨.list none ?_, .object none (by simp) (by decide) ?_⟩
  · refine List.forall_mem_singleton.2 (.object none (by simp) (by decide) ?_)
    simp only [List.forall_mem_cons, List.not_mem_nil, false_implies, implies_true, and_true]
    exact ⟨hflag, .text _⟩
  · exact List.forall_mem_singleton.2 hnull

/-- The deprecated keys of a document are reported from its text. -/
theorem check_written_iff_singularDocument :
    singularDocument.IsDocument ∧ Yaml.isReadable singularDocument = true ∧
      Reports (run (treeOfText singularText) ["check", "doc"]) ["tag", "path"] := by
  have hwrite : Format.json.write singularDocument = .ok singularText.toList :=
    eq_ok_of_toOption (by decide +kernel)
  have hargs : Invocation.ofArguments (treeOfText singularText) ["check", "doc"] =
      .ok ⟨false, .check (Path.ofText "doc")⟩ := eq_ok_of_toOption (by decide +kernel)
  have hfile : (treeOfText singularText).read (Path.ofText "doc") =
      .ok (String.ofList singularText.toList).toUTF8 := by
    rw [String.ofList_toList]
    exact eq_ok_of_toOption (by decide +kernel)
  have hnames : Document.deprecatedNames true singularDocument = ["tag", "path"] := by
    decide +kernel
  have hreadable : Yaml.isReadable singularDocument = true := by decide +kernel
  obtain ⟨text, htext, hcheck⟩ := check_written_iff isDocument_singularDocument
  obtain rfl : singularText.toList = text := Except.ok.inj (hwrite.symm.trans htext)
  have hreports := (hcheck _ _ _ _ hargs hfile).1.2 hreadable
  rw [hnames] at hreports
  exact ⟨isDocument_singularDocument, hreadable, hreports⟩

/-- A document with a character that YAML has no place for. -/
def controlDocument : Value := .map [(.text "x", .text "\x7f")]

/-- A written document without deprecated keys that does not pass: its text cannot be read. -/
theorem check_control_fails :
    Document.deprecatedNames true controlDocument = [] ∧
      (Format.json.write controlDocument).toOption =
        some "\x7b\n  \"x\": \"\x7f\"\n\x7d\n".toList ∧
      (run (treeOfText "\x7b\n  \"x\": \"\x7f\"\n\x7d\n") ["check", "doc"]).exitCode = 1 := by
  decide +kernel

end ApiDoc.Cli
