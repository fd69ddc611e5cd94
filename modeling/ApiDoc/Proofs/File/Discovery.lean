import ApiDoc.File.Glob
import ApiDoc.Proofs.Except
import Mathlib.Data.List.Nodup

/-!
# Files of patterns

The files of a list of patterns are the regular files among the matches, each in the place where it
is found first. Two lists of patterns behind one another give the files of the first list, and then
those files of the second that are new: `FileTree.glob_append_new`.

Files are added by two loops, one over the patterns and one over the matches of a pattern. Both do
the same to the files that are there: they append what is new (`appendNew`). This is an associative
operation with the empty list as its unit, so the loops can be cut anywhere.
-/

namespace ApiDoc

/-! ## Appending what is new -/

section AppendNew

variable {α : Type} [BEq α] [LawfulBEq α]

/-- A list, and behind it the items of a second list that are not in it. -/
def appendNew (xs ys : List α) : List α := xs ++ ys.filter (· ∉ xs)

theorem appendNew_nil (xs : List α) : appendNew xs [] = xs := List.append_nil xs

theorem nil_appendNew (ys : List α) : appendNew [] ys = ys := by simp [appendNew]

/-- An item is there just if it is in one of the two lists. -/
theorem mem_appendNew {xs ys : List α} {a : α} : a ∈ appendNew xs ys ↔ a ∈ xs ∨ a ∈ ys := by
  by_cases ha : a ∈ xs <;> simp [appendNew, ha]

/-- An item that is there is not appended. -/
theorem appendNew_singleton_of_mem {xs : List α} {a : α} (h : a ∈ xs) : appendNew xs [a] = xs := by
  simp [appendNew, h]

/-- A new item goes to the end. -/
theorem appendNew_singleton {xs : List α} {a : α} (h : a ∉ xs) :
    appendNew xs [a] = xs ++ [a] := by
  simp [appendNew, h]

/-- Three lists may be joined in either order. -/
theorem appendNew_assoc (xs ys zs : List α) :
    appendNew (appendNew xs ys) zs = appendNew xs (appendNew ys zs) := by
  have hnew : zs.filter (· ∉ appendNew xs ys) = (zs.filter (· ∉ ys)).filter (· ∉ xs) := by
    rw [List.filter_filter]
    refine List.filter_congr fun a _ => ?_
    simp [mem_appendNew, not_or]
  calc appendNew (appendNew xs ys) zs
      = xs ++ ys.filter (· ∉ xs) ++ zs.filter (· ∉ appendNew xs ys) := rfl
    _ = xs ++ (ys ++ zs.filter (· ∉ ys)).filter (· ∉ xs) := by
        rw [hnew, List.filter_append, List.append_assoc]

/-- Lists without duplicates are joined to one without. -/
theorem nodup_appendNew {xs ys : List α} (hxs : xs.Nodup) (hys : ys.Nodup) :
    (appendNew xs ys).Nodup := by
  refine hxs.append (hys.filter _) fun a hx hy => ?_
  have hnot : a ∉ xs := by simpa using (List.mem_filter.1 hy).2
  exact hnot hx

end AppendNew

namespace FileTree

variable {tree : FileTree} {base : Path}

/-! ## The matches of a pattern -/

/-- The place of a match, if there is a file. -/
def fileOf (tree : FileTree) (f : Found) : List (List String) :=
  if tree.isFile f.place then [f.place] else []

/-- A match gives its place just if there is a file. -/
theorem mem_fileOf {f : Found} {place : List String} :
    place ∈ tree.fileOf f ↔ tree.isFile place = true ∧ f.place = place := by
  rw [fileOf]
  split
  · next hfile =>
    rw [List.mem_singleton]
    exact ⟨fun h => ⟨h ▸ hfile, h.symm⟩, fun h => h.2.symm⟩
  · next hfile =>
    refine ⟨fun h => absurd h List.not_mem_nil, ?_⟩
    rintro ⟨h, rfl⟩
    exact absurd h hfile

/-- A match gives one place at most. -/
theorem nodup_fileOf (f : Found) : (tree.fileOf f).Nodup := by
  rw [fileOf]
  split
  · exact List.nodup_singleton f.place
  · exact List.nodup_nil

/-- A match adds its file, if that is new. -/
theorem addFiles_cons (tree : FileTree) (files : List (List String)) (f : Found)
    (rest : List Found) :
    tree.addFiles files (f :: rest) = tree.addFiles (appendNew files (tree.fileOf f)) rest := by
  rw [addFiles, fileOf]
  cases hfile : tree.isFile f.place with
  | false => simp [appendNew_nil]
  | true =>
    by_cases hmem : f.place ∈ files
    · simp [hmem, appendNew_singleton_of_mem]
    · simp [hmem, appendNew_singleton]

/-- Files are added to others as to none, and what is not new is left out. -/
theorem addFiles_eq_appendNew (files : List (List String)) (found : List Found) :
    tree.addFiles files found = appendNew files (tree.addFiles [] found) := by
  induction found generalizing files with
  | nil => exact (appendNew_nil files).symm
  | cons f rest ih =>
    rw [addFiles_cons, addFiles_cons, nil_appendNew, ih, ih (tree.fileOf f), appendNew_assoc]

/-- The files of matches: that of the first one, and those of the others that are new. -/
theorem addFiles_nil_cons (tree : FileTree) (f : Found) (rest : List Found) :
    tree.addFiles [] (f :: rest) = appendNew (tree.fileOf f) (tree.addFiles [] rest) := by
  rw [addFiles_cons, nil_appendNew, addFiles_eq_appendNew]

/-- The places of matches are those where there are files. -/
theorem mem_addFiles {found : List Found} {place : List String} :
    place ∈ tree.addFiles [] found ↔
      tree.isFile place = true ∧ ∃ f ∈ found, f.place = place := by
  induction found with
  | nil => simp [addFiles]
  | cons f rest ih =>
    rw [addFiles_nil_cons, mem_appendNew, mem_fileOf, ih, List.exists_mem_cons_iff, and_or_left]

/-- No place is given twice. -/
theorem nodup_addFiles (found : List Found) : (tree.addFiles [] found).Nodup := by
  induction found with
  | nil => exact List.nodup_nil
  | cons f rest ih =>
    rw [addFiles_nil_cons]
    exact nodup_appendNew (nodup_fileOf f) ih

/-! ## Lists of patterns -/

/-- The files of patterns are added to others as to none. -/
theorem globFrom_eq_map (files : List (List String)) (ps : List String) :
    tree.globFrom base files ps = (tree.glob base ps).map (appendNew files) := by
  induction ps generalizing files with
  | nil => exact congrArg Except.ok (appendNew_nil files).symm
  | cons p ps ih =>
    rw [glob, globFrom, globFrom]
    cases tree.matching base p with
    | error fault => rfl
    | ok found =>
      -- the files of `p` come between those that are there and those of `ps`
      calc tree.globFrom base (tree.addFiles files found) ps
          = (tree.glob base ps).map (appendNew (appendNew files (tree.addFiles [] found))) := by
            rw [ih, addFiles_eq_appendNew]
        _ = ((tree.glob base ps).map (appendNew (tree.addFiles [] found))).map
              (appendNew files) := by
            cases tree.glob base ps with
            | error fault => rfl
            | ok gs => exact congrArg Except.ok (appendNew_assoc _ _ _)
        _ = (tree.globFrom base (tree.addFiles [] found) ps).map (appendNew files) := by rw [ih]

/-- The files of a pattern and of others behind it. -/
theorem glob_cons (tree : FileTree) (base : Path) (p : String) (ps : List String) :
    tree.glob base (p :: ps) = do
      let found ← tree.matching base p
      let gs ← tree.glob base ps
      return appendNew (tree.addFiles [] found) gs := by
  rw [glob, globFrom]
  cases tree.matching base p with
  | error fault => rfl
  | ok found => exact globFrom_eq_map (tree.addFiles [] found) ps

/-- The files of patterns and of others behind them, or the first fault. -/
theorem glob_append (tree : FileTree) (base : Path) (ps qs : List String) :
    tree.glob base (ps ++ qs) = do
      let fs ← tree.glob base ps
      let gs ← tree.glob base qs
      return appendNew fs gs := by
  induction ps with
  | nil =>
    rw [List.nil_append]
    cases h : tree.glob base qs with
    | error fault => rfl
    | ok gs => exact congrArg Except.ok (nil_appendNew gs).symm
  | cons p ps ih =>
    rw [List.cons_append, glob_cons, glob_cons, ih]
    cases tree.matching base p with
    | error fault => rfl
    | ok found =>
      cases tree.glob base ps with
      | error fault => rfl
      | ok fs =>
        cases tree.glob base qs with
        | error fault => rfl
        | ok gs => exact congrArg Except.ok (appendNew_assoc _ _ _).symm

variable {ps qs : List String} {fs gs : List (List String)}

/-- What is found, if all patterns can be used. -/
theorem of_glob_cons {p : String} (h : tree.glob base (p :: ps) = .ok fs) :
    ∃ found gs, tree.matching base p = .ok found ∧ tree.glob base ps = .ok gs ∧
      fs = appendNew (tree.addFiles [] found) gs := by
  rw [glob_cons] at h
  obtain ⟨found, hfound, h⟩ := exists_of_bind_eq_ok h
  obtain ⟨gs, hgs, h⟩ := exists_of_bind_eq_ok h
  cases h
  exact ⟨found, gs, hfound, hgs, rfl⟩

/-- Patterns give no place twice. -/
theorem nodup_glob (h : tree.glob base ps = .ok fs) : fs.Nodup := by
  induction ps generalizing fs with
  | nil =>
    cases h
    exact List.nodup_nil
  | cons p ps ih =>
    obtain ⟨found, gs, -, hgs, rfl⟩ := of_glob_cons h
    exact nodup_appendNew (nodup_addFiles found) (ih hgs)

/-- The files of patterns are the matches that are files. -/
theorem mem_glob (h : tree.glob base ps = .ok fs) {place : List String} :
    place ∈ fs ↔ tree.isFile place = true ∧
      ∃ p ∈ ps, ∃ found, tree.matching base p = .ok found ∧ ∃ f ∈ found, f.place = place := by
  induction ps generalizing fs with
  | nil =>
    cases h
    simp
  | cons p ps ih =>
    obtain ⟨found, gs, hfound, hgs, rfl⟩ := of_glob_cons h
    rw [mem_appendNew, mem_addFiles, ih hgs, List.exists_mem_cons_iff, ← and_or_left]
    simp [hfound]

/-- The files of patterns are the regular files among their matches, each once. Further patterns
behind them add, behind these files, those of their own files that are not among them. -/
theorem glob_append_new (hps : tree.glob base ps = .ok fs) (hqs : tree.glob base qs = .ok gs) :
    fs.Nodup ∧
      (∀ place, place ∈ fs ↔ tree.isFile place = true ∧
        ∃ p ∈ ps, ∃ found, tree.matching base p = .ok found ∧ ∃ f ∈ found, f.place = place) ∧
      tree.glob base (ps ++ qs) = .ok (fs ++ gs.filter (· ∉ fs)) := by
  refine ⟨nodup_glob hps, fun place => mem_glob hps, ?_⟩
  rw [glob_append, hps, hqs]
  rfl

/-- Two files, and a third one in a directory beside them. -/
def shopTree : FileTree :=
  ⟨[(["shop"], .directory), (["shop", "pets.js"], .file .empty),
    (["shop", "users.js"], .file .empty), (["shop", "routes"], .directory),
    (["shop", "routes", "dogs.js"], .file .empty)], ["shop"]⟩

/-- Two files are found again, one by an absolute pattern and one by a way up, down and up. -/
theorem glob_append_new_shopTree :
    let ps := ["../pets.js", "*.js"]
    let qs := ["/shop/**/d*.js", "/shop/u*", "../routes/../pets.js"]
    let fs := [["shop", "pets.js"], ["shop", "routes", "dogs.js"]]
    shopTree.glob ⟨.here, ["routes"]⟩ ps = .ok fs ∧
      shopTree.glob ⟨.here, ["routes"]⟩ qs =
        .ok [["shop", "routes", "dogs.js"], ["shop", "users.js"], ["shop", "pets.js"]] ∧
      fs.Nodup ∧
      (∀ place, place ∈ fs ↔ shopTree.isFile place = true ∧
        ∃ p ∈ ps, ∃ found, shopTree.matching ⟨.here, ["routes"]⟩ p = .ok found ∧
          ∃ f ∈ found, f.place = place) ∧
      shopTree.glob ⟨.here, ["routes"]⟩ (ps ++ qs) = .ok (fs ++ [["shop", "users.js"]]) := by
  intro ps qs fs
  have hps : shopTree.glob ⟨.here, ["routes"]⟩ ps = .ok fs := by decide +kernel
  have hqs : shopTree.glob ⟨.here, ["routes"]⟩ qs =
      .ok [["shop", "routes", "dogs.js"], ["shop", "users.js"], ["shop", "pets.js"]] := by
    decide +kernel
  exact ⟨hps, hqs, glob_append_new hps hqs⟩

end FileTree

end ApiDoc
