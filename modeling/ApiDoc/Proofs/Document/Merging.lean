import ApiDoc.Proofs.Assoc.Series
import ApiDoc.Proofs.Document.Sections
import ApiDoc.Proofs.Value.Equality
import Mathlib.Data.List.Induction
import Mathlib.Data.List.TakeWhile

/-!
# What merges make of paths and groups

Merging paths into an object is merging maps, path by path. It merges those in front of the first
path that does not take the methods that come in for it, and fails if there is such a path
(`addPaths_front`). When it goes through (`addPaths_fault_iff`), how far it gets with different
paths (`addPaths_eq`) and that it goes through for objects of objects (`mergePaths_of_objects`) are
read off this.

Merging groups into a list of objects adds those groups that count as something and whose names are
not there, one after another, and does not fail (`addGroups_objects`). What such a run leaves is
said by `Appended`.
-/

namespace ApiDoc

/-! ## Shapes of values -/

namespace Value

/-- The entries of an object. -/
def entries : Value → List (Atom × Value)
  | .object _ entries => entries
  | _ => []

/-- Whether a value is an object. -/
def isObject : Value → Bool
  | .object _ _ => true
  | _ => false

/-- Whether a value is a list. -/
def isList : Value → Bool
  | .list _ _ => true
  | _ => false

/-- An object has a mark and entries. -/
theorem isObject_iff {v : Value} : v.isObject = true ↔ ∃ m entries, v = .object m entries := by
  cases v <;> simp [isObject]

/-- A list has a mark and items. -/
theorem isList_iff {v : Value} : v.isList = true ↔ ∃ m items, v = .list m items := by
  cases v <;> simp [isList]

end Value

namespace Document

open Value

/-! ## Paths -/

/-- Whether methods can be merged into what is there for a path. -/
def opens (existing : Option Value) : Bool := (entriesOf (existing.getD (.map []))).toBool

/-- The methods of what is there for a path. -/
def methodsOf (existing : Option Value) : List (Atom × Value) :=
  (entriesOf (existing.getD (.map []))).toOption.getD []

/-- What is there for a path with the methods of an object. -/
def joinPath (existing : Option Value) (methods : Value) : Value :=
  .map (Assoc.mergeWith overlay (methodsOf existing) methods.entries)

/-- Whether the methods of an object can be merged into what is there for a path. -/
def TakesMethods (existing : Option Value) (methods : Value) : Prop :=
  opens existing = true ∧ methods.isObject = true

/-- The methods of a path that is an object are its entries. -/
theorem methodsOf_object (m : Option Mark) (entries : List (Atom × Value)) :
    methodsOf (some (.object m entries)) = entries :=
  rfl

/-- Methods can be merged into a path that is an object. -/
theorem opens_of_isObject {v : Value} (h : v.isObject = true) : opens (some v) = true := by
  obtain ⟨m, entries, rfl⟩ := isObject_iff.1 h
  rfl

/-- Methods that are taken are merged with those that are there. -/
theorem mergePath_of_takesMethods {existing : Option Value} {methods : Value}
    (h : TakesMethods existing methods) :
    mergePath existing methods = .ok (joinPath existing methods) := by
  obtain ⟨hopens, hmethods⟩ := h
  obtain ⟨m, new, rfl⟩ := isObject_iff.1 hmethods
  unfold opens at hopens
  cases hold : entriesOf (existing.getD (.map [])) with
  | error fault => simp [hold, Except.toBool] at hopens
  | ok old =>
    simp only [mergePath, joinPath, methodsOf, hold, Except.toOption, Option.getD_some, entries,
      mergeMethods_eq_mergeWith]

/-- Methods that are not taken are refused with a fault. -/
theorem mergePath_of_not_takesMethods {existing : Option Value} {methods : Value}
    (h : ¬TakesMethods existing methods) : ∃ fault, mergePath existing methods = .error fault := by
  unfold mergePath
  cases hold : entriesOf (existing.getD (.map [])) with
  | error fault => exact ⟨fault, rfl⟩
  | ok old =>
    have hopens : opens existing = true := by
      rw [opens, hold]
      rfl
    cases methods with
    | object m new => exact absurd ⟨hopens, rfl⟩ h
    | _ => exact ⟨_, rfl⟩

/-- Merging paths merges a front of them, each path of which takes its methods. It goes through just
if that is all of them; otherwise the next path does not take its methods. -/
theorem addPaths_front (m : Option Mark) (paths new : List (Atom × Value)) :
    ∃ front rest, new = front ++ rest ∧ Assoc.Admits TakesMethods joinPath paths front ∧
      (addPaths m paths new).value = .object m (Assoc.mergeWith joinPath paths front) ∧
      ((addPaths m paths new).fault = none ↔ rest = []) ∧
      ∀ e ∈ rest.head?,
        ¬TakesMethods (Assoc.get? e.1 (Assoc.mergeWith joinPath paths front)) e.2 := by
  induction new generalizing paths with
  | nil => exact ⟨[], [], rfl, trivial, rfl, iff_of_true rfl rfl, nofun⟩
  | cons e new ih =>
    obtain ⟨uri, methods⟩ := e
    rw [addPaths]
    by_cases htakes : TakesMethods (Assoc.get? uri paths) methods
    · obtain ⟨front, rest, rfl, hadmits, hvalue, hfault, hstops⟩ :=
        ih (Assoc.alter uri (fun x => joinPath x methods) paths)
      rw [mergePath_of_takesMethods htakes]
      exact ⟨(uri, methods) :: front, rest, rfl, ⟨htakes, hadmits⟩, hvalue, hfault, hstops⟩
    · obtain ⟨fault, hfault⟩ := mergePath_of_not_takesMethods htakes
      rw [hfault]
      refine ⟨[], (uri, methods) :: new, rfl, trivial, rfl, iff_of_false nofun nofun, ?_⟩
      rintro e ⟨⟩
      exact htakes

/-- Merging paths goes through just if each path takes the methods that come in for it, and then
merges all of them. -/
theorem addPaths_fault_iff (m : Option Mark) (paths new : List (Atom × Value)) :
    ((addPaths m paths new).fault = none ↔ Assoc.Admits TakesMethods joinPath paths new) ∧
      ((addPaths m paths new).fault = none →
        (addPaths m paths new).value = .object m (Assoc.mergeWith joinPath paths new)) := by
  obtain ⟨front, rest, hnew, hadmits, hvalue, hfault, hstops⟩ := addPaths_front m paths new
  rw [hfault, hvalue, hnew]
  cases rest with
  | nil =>
    rw [List.append_nil]
    exact ⟨iff_of_true rfl hadmits, fun _ => rfl⟩
  | cons e rest =>
    refine ⟨iff_of_false nofun fun h => ?_, nofun⟩
    exact hstops e rfl (Assoc.admits_append.1 h).2.1

/-- Of different paths, merging merges those in front of the first one that has no methods to merge
into, and fails if there is such a path. -/
theorem addPaths_eq (m : Option Mark) (paths : List (Atom × Value)) {new : List (Atom × Value)}
    (hnew : Assoc.Distinct new) (hobjects : ∀ e ∈ new, e.2.isObject = true) :
    (addPaths m paths new).value = .object m (Assoc.mergeWith joinPath paths
        (new.takeWhile fun e => opens (Assoc.get? e.1 paths))) ∧
      ((addPaths m paths new).fault = none ↔ ∀ e ∈ new, opens (Assoc.get? e.1 paths) = true) := by
  obtain ⟨front, rest, rfl, hadmits, hvalue, hfault, hstops⟩ := addPaths_front m paths new
  have hfront : ∀ e ∈ front, opens (Assoc.get? e.1 paths) = true :=
    fun e he => (hadmits.of_distinct (hnew.sublist (List.sublist_append_left front rest)) e he).1
  rw [hvalue, hfault, List.takeWhile_append_of_pos hfront, List.forall_mem_append,
    and_iff_right hfront]
  cases rest with
  | nil => exact ⟨by rw [List.takeWhile_nil, List.append_nil], iff_of_true rfl nofun⟩
  | cons e rest =>
    -- the next path is what it was, since those in front of it are others
    have hnone : opens (Assoc.get? e.1 paths) = false := by
      rw [← Bool.not_eq_true]
      intro hopens
      refine hstops e rfl ⟨?_, hobjects e (List.mem_append_right front List.mem_cons_self)⟩
      rw [hnew.get?_mergeWith_append]
      exact hopens
    rw [List.takeWhile_cons_of_neg (by rw [hnone]; exact Bool.false_ne_true), List.append_nil]
    refine ⟨rfl, iff_of_false nofun fun h => ?_⟩
    exact Bool.false_ne_true (hnone.symm.trans (h e List.mem_cons_self))

/-- Paths that are objects take the methods of objects. -/
theorem admits_of_isObject {paths new : List (Atom × Value)}
    (hpaths : ∀ e ∈ paths, e.2.isObject = true) (hnew : ∀ e ∈ new, e.2.isObject = true) :
    Assoc.Admits TakesMethods joinPath paths new := by
  refine Assoc.admits_of_values (p := fun v : Value => v.isObject = true)
    (fun e he x hx => ⟨⟨?_, hnew e he⟩, rfl⟩) hpaths
  cases x with
  | none => rfl
  | some v => exact opens_of_isObject (hx v rfl)

/-- Paths are merged into an object of objects one by one, and all of them are. -/
theorem mergePaths_of_objects (m m' : Option Mark) {paths new : List (Atom × Value)}
    (hpaths : ∀ e ∈ paths, e.2.isObject = true) (hnew : ∀ e ∈ new, e.2.isObject = true) :
    mergePaths (.object m paths) (.object m' new) =
      ⟨.object m (Assoc.mergeWith joinPath paths new), none⟩ := by
  obtain ⟨hiff, hvalue⟩ := addPaths_fault_iff m paths new
  have hfault := hiff.2 (admits_of_isObject hpaths hnew)
  calc mergePaths (.object m paths) (.object m' new)
      = ⟨(addPaths m paths new).value, (addPaths m paths new).fault⟩ := rfl
    _ = ⟨.object m (Assoc.mergeWith joinPath paths new), none⟩ := by rw [hvalue hfault, hfault]

/-! ## Groups -/

/-- Whether two groups have equal names. A group without a name has the name null. -/
def sameName (group other : Value) : Bool :=
  (groupName group.entries).same (groupName other.entries)

/-- Whether a group has a name that is a text. -/
def isNamed (name : String) (group : Value) : Bool := (groupName group.entries).same (.text name)

/-- Groups with a further one, if it counts as something and none of them has its name. -/
def addGroup (items : List Value) (group : Value) : List Value :=
  if group.isTruthy && !items.any (sameName · group) then items ++ [group] else items

/-- No group has the name of an earlier one. -/
def NamesDiffer (items : List Value) : Prop := items.Pairwise fun s t => sameName s t = false

/-- Of three groups the first has the name of the last, if each has the name of the next. -/
theorem sameName_trans {s t u : Value} (h : sameName s t = true) (h' : sameName t u = true) :
    sameName s u = true :=
  same_trans h h'

variable {items groups : List Value} {group : Value}

/-- Among objects the search for the name of an object does not fail. -/
theorem anyNamed_object (hitems : ∀ item ∈ items, item.isObject = true)
    (hgroup : group.isObject = true) :
    anyNamed group items = .ok (items.any (sameName · group)) := by
  obtain ⟨m, gs, rfl⟩ := isObject_iff.1 hgroup
  induction items with
  | nil => rfl
  | cons item items ih =>
    obtain ⟨hitem, hrest⟩ := List.forall_mem_cons.1 hitems
    obtain ⟨m', es, rfl⟩ := isObject_iff.1 hitem
    have hname : sameName (.object m' es) (.object m gs) = (groupName es).same (groupName gs) := rfl
    rw [anyNamed, ih hrest, List.any_cons, hname]
    cases (groupName es).same (groupName gs) <;> rfl

/-- A name that was found stays found, and one that was not is looked for in what follows. -/
theorem anyNamed_append (group : Value) (items rest : List Value) :
    (anyNamed group items = .ok true → anyNamed group (items ++ rest) = .ok true) ∧
      (anyNamed group items = .ok false →
        anyNamed group (items ++ rest) = anyNamed group rest) := by
  induction items with
  | nil => exact ⟨fun h => absurd (Except.ok.inj h) Bool.false_ne_true, fun _ => rfl⟩
  | cons item items ih =>
    rw [List.cons_append]
    cases item with
    | object m es =>
      cases group with
      | object m' gs =>
        rw [anyNamed, anyNamed]
        split
        · exact ⟨fun _ => rfl, fun h => absurd (Except.ok.inj h).symm Bool.false_ne_true⟩
        · exact ih
      | _ => constructor <;> intro h <;> cases h
    | _ => constructor <;> intro h <;> cases h

/-- A list of objects takes in an object and stays one of objects. -/
theorem isObject_addGroup (hitems : ∀ item ∈ items, item.isObject = true)
    (hgroup : group.isObject = true) : ∀ item ∈ addGroup items group, item.isObject = true := by
  unfold addGroup
  split
  · exact List.forall_mem_append.2 ⟨hitems, List.forall_mem_singleton.2 hgroup⟩
  · exact hitems

/-- A list of objects takes in objects and stays one of objects. -/
theorem isObject_foldl_addGroup (hitems : ∀ item ∈ items, item.isObject = true)
    (hgroups : ∀ group ∈ groups, group.isObject = true) :
    ∀ item ∈ groups.foldl addGroup items, item.isObject = true := by
  induction groups generalizing items with
  | nil => exact hitems
  | cons group groups ih =>
    obtain ⟨hgroup, hrest⟩ := List.forall_mem_cons.1 hgroups
    exact ih (isObject_addGroup hitems hgroup) hrest

/-- Groups that are objects are added to a list of objects one after another, without fault. -/
theorem addGroups_objects (m : Option Mark) (hitems : ∀ item ∈ items, item.isObject = true)
    (hgroups : ∀ group ∈ groups, group.isObject = true) :
    addGroups (.list m items) groups = ⟨.list m (groups.foldl addGroup items), none⟩ := by
  induction groups generalizing items with
  | nil => rfl
  | cons group groups ih =>
    obtain ⟨hgroup, hrest⟩ := List.forall_mem_cons.1 hgroups
    have hstep := ih (isObject_addGroup hitems hgroup) hrest
    rw [addGroups, List.foldl_cons, ← hstep, addGroup]
    simp only [hasGroup, elements?, anyNamed_object hitems hgroup]
    cases group.isTruthy with
    | false => rfl
    | true => cases items.any (sameName · group) <;> rfl

/-- A change of the earlier groups that keeps their names commutes with adding further ones. -/
theorem foldl_addGroup_map {φ : Value → Value} (hgroups : ∀ group ∈ groups, φ group = group)
    (hitems : ∀ item ∈ items, ∀ group ∈ groups, sameName (φ item) group = sameName item group) :
    groups.foldl addGroup (items.map φ) = (groups.foldl addGroup items).map φ := by
  induction groups generalizing items with
  | nil => rfl
  | cons group groups ih =>
    obtain ⟨hgroup, hrest⟩ := List.forall_mem_cons.1 hgroups
    -- whether a group is new does not change, so neither does what is appended
    have hany : (items.map φ).any (sameName · group) = items.any (sameName · group) := by
      rw [List.any_map, Bool.eq_iff_iff, List.any_eq_true, List.any_eq_true]
      refine exists_congr fun item => and_congr_right fun hitem => ?_
      rw [Function.comp_apply, hitems item hitem group List.mem_cons_self]
    have hstep : addGroup (items.map φ) group = (addGroup items group).map φ := by
      unfold addGroup
      rw [hany]
      split
      · rw [List.map_append, List.map_singleton, hgroup]
      · rfl
    rw [List.foldl_cons, List.foldl_cons, hstep]
    refine ih hrest fun item hitem other hother => ?_
    unfold addGroup at hitem
    split at hitem
    · rcases List.mem_append.1 hitem with hold | hnew
      · exact hitems item hold other (List.mem_cons_of_mem group hother)
      · rw [List.mem_singleton.1 hnew, hgroup]
    · exact hitems item hitem other (List.mem_cons_of_mem group hother)

/-! ## What a run of groups leaves -/

/-- What was appended to groups by a run: some of the groups that it reached, in order. Each of them
counts as something, is the first one with its name among those, and no group had its name before.
The run has passed over what counts as nothing and what has the name of another group only. -/
structure Appended (earlier reached appended : List Value) : Prop where
  sublist : appended.Sublist reached
  truthy : ∀ group ∈ appended, group.isTruthy = true
  absent : ∀ group ∈ appended, ∀ s ∈ earlier, sameName s group = false
  first : ∀ group ∈ appended, ∃ before after, reached = before ++ group :: after ∧
    ∀ s ∈ before, s.isTruthy = true → sameName s group = false
  complete : ∀ group ∈ reached, group.isTruthy = true →
    group ∈ appended ∨ ∃ s ∈ earlier ++ appended, sameName s group = true
  differ : NamesDiffer appended

variable {earlier reached appended : List Value}

/-- Nothing is appended when nothing is reached. -/
theorem appended_nil (earlier : List Value) : Appended earlier [] [] where
  sublist := List.Sublist.refl []
  truthy _ h := absurd h List.not_mem_nil
  absent _ h := absurd h List.not_mem_nil
  first _ h := absurd h List.not_mem_nil
  complete _ h := absurd h List.not_mem_nil
  differ := List.Pairwise.nil

/-- A group is passed over. -/
theorem Appended.skip (h : Appended earlier reached appended)
    (hskip : group.isTruthy = true → ∃ s ∈ earlier ++ appended, sameName s group = true) :
    Appended earlier (reached ++ [group]) appended where
  sublist := h.sublist.trans (List.sublist_append_left reached [group])
  truthy := h.truthy
  absent := h.absent
  first := by
    intro g hg
    obtain ⟨before, after, rfl, hbefore⟩ := h.first g hg
    exact ⟨before, after ++ [group], by rw [List.append_assoc, List.cons_append], hbefore⟩
  complete := by
    intro g hg htruthy
    rcases List.mem_append.1 hg with hold | hnew
    · exact h.complete g hold htruthy
    · obtain rfl := List.mem_singleton.1 hnew
      exact .inr (hskip htruthy)
  differ := h.differ

/-- A group is added. -/
theorem Appended.push (h : Appended earlier reached appended) (htruthy : group.isTruthy = true)
    (hnew : ∀ s ∈ earlier ++ appended, sameName s group = false) :
    Appended earlier (reached ++ [group]) (appended ++ [group]) where
  sublist := h.sublist.append (List.Sublist.refl [group])
  truthy := List.forall_mem_append.2 ⟨h.truthy, List.forall_mem_singleton.2 htruthy⟩
  absent := by
    refine List.forall_mem_append.2 ⟨h.absent, List.forall_mem_singleton.2 fun s hs => ?_⟩
    exact hnew s (List.mem_append_left appended hs)
  first := by
    refine List.forall_mem_append.2 ⟨fun g hg => ?_, List.forall_mem_singleton.2 ?_⟩
    · obtain ⟨before, after, rfl, hbefore⟩ := h.first g hg
      exact ⟨before, after ++ [group], by rw [List.append_assoc, List.cons_append], hbefore⟩
    · -- nothing that was reached has the name: it would be there, or one with its name
      refine ⟨reached, [], rfl, fun s hs hs' => ?_⟩
      rw [← Bool.not_eq_true]
      intro hsame
      rcases h.complete s hs hs' with hin | ⟨r, hr, hname⟩
      · have hs := hnew s (List.mem_append_right earlier hin)
        exact Bool.false_ne_true (hs.symm.trans hsame)
      · have hr := hnew r hr
        exact Bool.false_ne_true (hr.symm.trans (sameName_trans hname hsame))
  complete := by
    intro g hg hg'
    rcases List.mem_append.1 hg with hold | hlast
    · rcases h.complete g hold hg' with hin | ⟨s, hs, hname⟩
      · exact .inl (List.mem_append_left [group] hin)
      · rw [← List.append_assoc]
        exact .inr ⟨s, List.mem_append_left [group] hs, hname⟩
    · exact .inl (List.mem_append_right appended hlast)
  differ := by
    refine List.pairwise_append.2 ⟨h.differ, List.pairwise_singleton _ group, fun s hs t ht => ?_⟩
    rw [List.mem_singleton.1 ht]
    exact hnew s (List.mem_append_right earlier hs)

/-- The names of all groups differ if those of the earlier ones do. -/
theorem Appended.namesDiffer (h : Appended earlier reached appended)
    (hearlier : NamesDiffer earlier) : NamesDiffer (earlier ++ appended) :=
  List.pairwise_append.2 ⟨hearlier, h.differ, fun s hs t ht => h.absent t ht s hs⟩

/-- A run of groups leaves the earlier ones as they are and appends to them. -/
theorem foldl_addGroup (earlier reached : List Value) :
    ∃ appended, reached.foldl addGroup earlier = earlier ++ appended ∧
      Appended earlier reached appended := by
  induction reached using List.reverseRecOn with
  | nil => exact ⟨[], (List.append_nil earlier).symm, appended_nil earlier⟩
  | append_singleton reached group ih =>
    obtain ⟨appended, hfold, hrun⟩ := ih
    rw [List.foldl_append, hfold, List.foldl_cons, List.foldl_nil, addGroup]
    split
    · rename_i hadd
      rw [Bool.and_eq_true, Bool.not_eq_true', List.any_eq_false] at hadd
      have hnew : ∀ s ∈ earlier ++ appended, sameName s group = false :=
        fun s hs => Bool.not_eq_true _ ▸ hadd.2 s hs
      exact ⟨appended ++ [group], List.append_assoc .., hrun.push hadd.1 hnew⟩
    · rename_i hskip
      refine ⟨appended, rfl, hrun.skip fun htruthy => ?_⟩
      rw [htruthy, Bool.true_and, Bool.not_eq_true', Bool.not_eq_false, List.any_eq_true] at hskip
      exact hskip

/-- Groups that are objects are merged into a list of objects by appending some of them. -/
theorem addGroups_appended (m : Option Mark) (hitems : ∀ item ∈ items, item.isObject = true)
    (hgroups : ∀ group ∈ groups, group.isObject = true) :
    ∃ appended, addGroups (.list m items) groups = ⟨.list m (items ++ appended), none⟩ ∧
      Appended items groups appended := by
  obtain ⟨appended, hfold, happended⟩ := foldl_addGroup items groups
  refine ⟨appended, ?_, happended⟩
  rw [addGroups_objects m hitems hgroups, hfold]

end Document

end ApiDoc
