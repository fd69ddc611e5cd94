import ApiDoc.Proofs.Value.Sharing

/-!
# Changing the sections of a document

A merge changes one section of a document, and shows in every place where the section occurs as an
object. Whatever the section is, the merge keeps which object it is and brings nothing into it but
parts of the section and of the fragment (`mergeSection_grown`). So the document stays one whose
objects are the same in all their places: `Sound.putSection`.
-/

namespace ApiDoc

namespace Value

/-! ## Changes in place -/

/-- A value and what has become of it: the same object with other parts. -/
inductive Regrown : Value → Value → Prop where
  | refl (v : Value) : Regrown v v
  | list (m : Option Mark) (as bs : List Value) : Regrown (.list m as) (.list m bs)
  | object (m : Option Mark) (es fs : List (Atom × Value)) : Regrown (.object m es) (.object m fs)
  | pair (a b c d : Value) : Regrown (.pair a b) (.pair c d)

variable {old new : Value}

/-- An object keeps its mark. -/
theorem Regrown.mark?_eq (h : Regrown old new) : new.mark? = old.mark? := by
  cases h <;> rfl

/-- An object that changes twice stays the same object. -/
theorem Regrown.trans {u v w : Value} (h : Regrown u v) (h' : Regrown v w) : Regrown u w := by
  cases h with
  | refl => exact h'
  | list m as bs => cases h' <;> exact .list m as _
  | object m es fs => cases h' <;> exact .object m es _
  | pair a b c d => cases h' <;> exact .pair a b _ _

/-- A function on the parts of an object leaves which object it is. -/
theorem regrown_mapParts (f : Value → Value) (v : Value) : Regrown v (v.mapParts f) := by
  cases v with
  | atom a => exact .refl _
  | list m items => exact .list m _ _
  | object m entries => exact .object m _ _
  | pair a b => exact .pair a b _ _
  | set m items => exact .refl _

/-- The new object is what takes the place of the old one. -/
theorem Regrown.refresh_eq (h : Regrown old new) {mark : Mark} (hmark : old.mark? = some mark) :
    refresh mark new old = new := by
  by_cases hbox : old.isBox = true
  · rw [Value.refresh_eq, if_pos ⟨hbox, hmark⟩]
  · cases h with
    | refl =>
      cases old with
      | atom a => exact refresh_atom _ _ a
      | _ => exact absurd rfl hbox
    | _ => exact absurd rfl hbox

/-- A value after a change of an object, which shows if the object has a mark. -/
def patch (old new v : Value) : Value :=
  match old.mark? with
  | some mark => refresh mark new v
  | none => v

/-- A change of an object without a mark shows nowhere else. -/
theorem patch_of_mark?_eq_none (h : old.mark? = none) (new v : Value) : patch old new v = v := by
  rw [patch, h]

/-- A change of an object with a mark shows in all its places. -/
theorem patch_of_mark?_eq_some {mark : Mark} (h : old.mark? = some mark) (new v : Value) :
    patch old new v = refresh mark new v := by
  rw [patch, h]

/-- The new object is as it is in its place. -/
theorem Regrown.patch_new (h : Regrown old new) : patch old new new = new := by
  cases hmark : old.mark? with
  | none => exact patch_of_mark?_eq_none hmark new new
  | some mark =>
    have hnew : new.mark? = some mark := h.mark?_eq.trans hmark
    rw [patch_of_mark?_eq_some hmark, (Regrown.refl new).refresh_eq hnew]

/-- A value that is a node with a number, or has no mark. -/
def IsNumbered (v : Value) : Prop := ∀ mark, v.mark? = some mark → ∃ i, mark = .node i

/-- Nothing changes in a value without numbered nodes, if the object is a numbered node. -/
theorem IsNew.patch_eq {v : Value} (hv : v.IsNew) (hold : old.IsNumbered) :
    patch old new v = v := by
  cases hmark : old.mark? with
  | none => exact patch_of_mark?_eq_none hmark new v
  | some mark =>
    obtain ⟨i, rfl⟩ := hold mark hmark
    rw [patch_of_mark?_eq_some hmark]
    exact refresh_eq_self_of_ne (hv.mono fun _ _ hne => hne i)

end Value

namespace Document

open Value

/-! ## What a merge brings into a section -/

variable {P : Value → Prop} {p : Mark → Value → Prop} {target value : Value}

/-- A section and what has become of it: the same object, with parts all of whose nodes satisfy a
predicate if those of the old parts do. -/
structure Grown (P : Value → Prop) (old new : Value) : Prop where
  regrown : Regrown old new
  every : (∀ w ∈ old.parts, w.Every P) → ∀ w ∈ new.parts, w.Every P

/-- A section that nothing has come into. -/
theorem Grown.refl (v : Value) : Grown P v v := ⟨.refl v, fun h => h⟩

/-- A section that grows twice has grown. -/
theorem Grown.trans {u v w : Value} (h : Grown P u v) (h' : Grown P v w) : Grown P u w :=
  ⟨h.regrown.trans h'.regrown, fun hu => h'.every (h.every hu)⟩

/-- The entries afterwards were there or are new. -/
theorem mem_addNew {old new : List (Atom × Value)} {e : Atom × Value} (h : e ∈ addNew old new) :
    e ∈ old ∨ e ∈ new := by
  induction new generalizing old with
  | nil => exact .inl h
  | cons e' new ih =>
    rcases ih h with hold | hnew
    · unfold Assoc.insertNew at hold
      split at hold
      · exact .inl hold
      · rcases List.mem_append.1 hold with hold | hself
        · exact .inl hold
        · rw [List.mem_singleton.1 hself]
          exact .inr List.mem_cons_self
    · exact .inr (List.mem_cons_of_mem e' hnew)

/-- New entries keep a predicate on all nodes. -/
theorem addNew_every {entries new : List (Atom × Value)} (h : EveryIn P entries)
    (hnew : EveryIn P new) : EveryIn P (addNew entries new) := by
  refine ⟨fun e he => ?_, fun e he => ?_⟩
  · exact (mem_addNew he).elim (h.keys e) (hnew.keys e)
  · exact (mem_addNew he).elim (h.values e) (hnew.values e)

/-- A map grows by the nodes of a value. -/
theorem mergeMap_grown (hvalue : value.Every P) :
    Grown P target (mergeMap target value).value := by
  unfold mergeMap
  split
  · split
    · rename_i m entries
      refine ⟨.object m _ _, fun h => ?_⟩
      exact everyIn_iff.1 (addNew_every (everyIn_iff.2 h) hvalue.entries)
    · exact .refl target
  · exact .refl target

/-- A list grows by the nodes of an item. -/
theorem append_grown {item new : Value} (hitem : item.Every P) (h : append target item = .ok new) :
    Grown P target new := by
  unfold append at h
  split at h
  · cases h
    refine ⟨.list _ _ _, fun hold w hw => ?_⟩
    rcases List.mem_append.1 hw with hw | hw
    · exact hold w hw
    · rw [List.mem_singleton.1 hw]
      exact hitem
  · cases h

/-- A list grows by the nodes of items. -/
theorem addItems_grown {items : List Value} (hitems : ∀ item ∈ items, item.Every P) :
    Grown P target (addItems target items).value := by
  induction items generalizing target with
  | nil => exact .refl target
  | cons item items ih =>
    have hrest : ∀ item ∈ items, item.Every P := fun x hx => hitems x (List.mem_cons_of_mem _ hx)
    unfold addItems
    split
    · exact .refl target
    · exact ih hrest
    · split
      · exact .refl target
      · rename_i happend
        exact (append_grown (hitems item List.mem_cons_self) happend).trans (ih hrest)

/-- Groups grow by the nodes of further ones. -/
theorem addGroups_grown {groups : List Value} (hgroups : ∀ group ∈ groups, group.Every P) :
    Grown P target (addGroups target groups).value := by
  induction groups generalizing target with
  | nil => exact .refl target
  | cons group groups ih =>
    have hrest : ∀ group ∈ groups, group.Every P :=
      fun x hx => hgroups x (List.mem_cons_of_mem _ hx)
    unfold addGroups
    split
    · split
      · exact .refl target
      · exact ih hrest
      · split
        · exact .refl target
        · rename_i happend
          exact (append_grown (hgroups group List.mem_cons_self) happend).trans (ih hrest)
    · exact ih hrest

/-- The items that a value offers have only nodes of the value. -/
theorem itemsOrSelf_every (hvalue : value.Every P) :
    ∀ item ∈ value.itemsOrSelf, item.Every P := by
  unfold itemsOrSelf
  split
  · exact fun item => hvalue.part
  · intro item hitem
    rw [List.mem_singleton.1 hitem]
    exact hvalue

/-! ### Paths -/

/-- The entries of pairs keep a predicate on all nodes. -/
theorem pairs_every (hP : HoldsOfNew P) {items : List Value} {entries result : List (Atom × Value)}
    (h : EveryIn P entries) (hitems : ∀ item ∈ items, item.Every P)
    (hresult : pairs entries items = .ok result) : EveryIn P result := by
  induction items generalizing entries with
  | nil =>
    cases hresult
    exact h
  | cons item items ih =>
    have hitem : item.Every P := hitems item List.mem_cons_self
    unfold pairs at hresult
    split at hresult
    · cases hresult
    · rename_i key v helements
      have hpair := elements?_every hP (fun _ => hitem.part) helements
      refine ih ?_ (fun x hx => hitems x (List.mem_cons_of_mem _ hx)) hresult
      exact h.insert (hpair _ (List.mem_pair.2 (.inl rfl))).self
        (hpair _ (List.mem_pair.2 (.inr rfl)))
    · cases hresult
    · cases hresult

/-- The entries that a value gives have only nodes of the value. -/
theorem entriesOf_every (hP : HoldsOfNew P) {v : Value} (h : v.Every P)
    {entries : List (Atom × Value)} (hentries : entriesOf v = .ok entries) : EveryIn P entries := by
  unfold entriesOf at hentries
  split at hentries
  · cases hentries
    exact h.entries
  · split at hentries
    · rename_i helements
      exact pairs_every hP everyIn_nil (elements?_every hP (fun _ => h.part) helements) hentries
    · cases hentries

/-- An operation on top of another keeps a predicate on all nodes. -/
theorem overlay_every (hP : HoldsOfNew P) {existing : Option Value} {operation : Value}
    (h : ∀ v, existing = some v → v.Every P) (hop : operation.Every P) :
    (overlay existing operation).Every P := by
  unfold overlay
  split
  · exact ((h _ rfl).entries.update hop.entries).object (hP.map _)
  · exact hop

/-- Merging methods is merging maps, operation by operation. -/
theorem mergeMethods_eq_mergeWith (methods new : List (Atom × Value)) :
    mergeMethods methods new = Assoc.mergeWith overlay methods new := by
  induction new generalizing methods with
  | nil => rfl
  | cons e new ih => exact ih _

/-- Merged methods keep a predicate on all nodes. -/
theorem mergeMethods_every (hP : HoldsOfNew P) {methods new : List (Atom × Value)}
    (h : EveryIn P methods) (hnew : EveryIn P new) : EveryIn P (mergeMethods methods new) := by
  induction new generalizing methods with
  | nil => exact h
  | cons e new ih =>
    obtain ⟨⟨hkey, hvalue⟩, hrest⟩ := everyIn_cons_iff.1 hnew
    exact ih (h.insert hkey (overlay_every hP (fun v hv => h.get? hv) hvalue)) hrest

/-- A merged path keeps a predicate on all nodes. -/
theorem mergePath_every (hP : HoldsOfNew P) {existing : Option Value} {methods merged : Value}
    (h : ∀ v, existing = some v → v.Every P) (hmethods : methods.Every P)
    (hmerged : mergePath existing methods = .ok merged) : merged.Every P := by
  have hold : (existing.getD (.map [])).Every P := by
    cases existing with
    | none => exact everyIn_nil.object (hP.map [])
    | some v => exact h v rfl
  unfold mergePath at hmerged
  split at hmerged
  · cases hmerged
  · rename_i hentries
    split at hmerged
    · cases hmerged
      exact (mergeMethods_every hP (entriesOf_every hP hold hentries) hmethods.entries).object
        (hP.map _)
    · cases hmerged

/-- Paths grow by the nodes of further ones. -/
theorem addPaths_grown (hP : HoldsOfNew P) {m : Option Mark} {paths new : List (Atom × Value)}
    (hnew : EveryIn P new) : Grown P (.object m paths) (addPaths m paths new).value := by
  induction new generalizing paths with
  | nil => exact .refl _
  | cons e new ih =>
    obtain ⟨⟨hkey, hvalue⟩, hrest⟩ := everyIn_cons_iff.1 hnew
    unfold addPaths
    split
    · exact .refl _
    · rename_i hmerged
      refine Grown.trans ⟨.object m _ _, fun h => ?_⟩ (ih hrest)
      have hpaths : EveryIn P paths := everyIn_iff.2 h
      exact everyIn_iff.1 (hpaths.insert hkey
        (mergePath_every hP (fun v hv => hpaths.get? hv) hvalue hmerged))

/-- Paths grow by the nodes of a value. -/
theorem mergePaths_grown (hP : HoldsOfNew P) (hvalue : value.Every P) :
    Grown P target (mergePaths target value).value := by
  unfold mergePaths
  split
  · split
    · exact addPaths_grown hP hvalue.entries
    · exact .refl target
  · exact .refl target

/-- A merge keeps which object a section is, and brings nothing into it but parts of the section
and of what is merged in, and what it makes itself. -/
theorem mergeSection_grown (hP : HoldsOfNew P) (kind : SectionKind) (hvalue : value.Every P) :
    Grown P target (mergeSection kind target value).value := by
  cases kind with
  | map => exact mergeMap_grown hvalue
  | list => exact addItems_grown (itemsOrSelf_every hvalue)
  | groups => exact addGroups_grown (itemsOrSelf_every hvalue)
  | paths => exact mergePaths_grown hP hvalue

/-- A section and what has become of it: the same object, with parts that have a predicate on their
marked nodes if the old parts have. -/
structure Gain (p : Mark → Value → Prop) (old new : Value) : Prop where
  regrown : Regrown old new
  marked : (∀ w ∈ old.parts, w.Marked p) → ∀ w ∈ new.parts, w.Marked p

/-- A merged section keeps a predicate on its marked nodes. -/
theorem mergeSection_gain (kind : SectionKind) (hvalue : value.Marked p) :
    Gain p target (mergeSection kind target value).value := by
  have hgrown : Grown (IfMarked p) target (mergeSection kind target value).value :=
    mergeSection_grown holdsOfNew_ifMarked kind (marked_iff_every.1 hvalue)
  refine ⟨hgrown.regrown, fun hold w hw => marked_iff_every.2 (hgrown.every ?_ w hw)⟩
  exact fun w hw => marked_iff_every.1 (hold w hw)

/-! ## Sound documents -/

/-- The entries of a document whose numbered nodes are those of a heap. The sections themselves may
have no other marks than numbers, since they are what a merge changes. -/
structure Sound (heap : Nat → Value) (entries : List (Atom × Value)) : Prop where
  follows : ∀ e ∈ entries, e.2.Follows heap
  numbered : ∀ e ∈ entries, e.2.IsNumbered

/-- The change of a section: it is still the same object, and the nodes of the heap in its parts are
smaller than it was, so it is not one of them. -/
abbrev Change (heap : Nat → Value) (old : Value) : Value → Prop :=
  Gain (fun mark x => ∀ i, mark = .node i → x = heap i ∧ sizeOf x < sizeOf old) old

variable {heap : Nat → Value} {old new v : Value} {entries : List (Atom × Value)}

/-- A section changes by a merge of something new. -/
theorem mergeSection_change (kind : SectionKind) (hvalue : value.IsNew) :
    Change heap target (mergeSection kind target value).value :=
  mergeSection_gain kind (hvalue.mono fun _ _ hne i heq => absurd heq (hne i))

/-- The numbered nodes in the parts of a changed section are smaller than it was. -/
theorem Change.parts (h : Change heap old new) (hold : old.Follows heap) :
    ∀ w ∈ new.parts, w.Marked fun mark x =>
      ∀ i, mark = .node i → x = heap i ∧ sizeOf x < sizeOf old := by
  refine h.marked fun w hw x mark hx hmark i heq => ⟨hold.part hw x mark hx hmark i heq, ?_⟩
  exact Nat.lt_of_le_of_lt hx.sizeOf_le (sizeOf_part_lt hw)

/-- A section changes only in its parts when another section changes. -/
theorem Change.patch_regrown (h : Change heap old new) (hold : old.Follows heap)
    (hnum : old.IsNumbered) (hv : v.Follows heap) : Regrown v (patch old new v) := by
  cases hmark : old.mark? with
  | none =>
    rw [patch_of_mark?_eq_none hmark]
    exact .refl v
  | some mark =>
    obtain ⟨j, rfl⟩ := hnum mark hmark
    rw [patch_of_mark?_eq_some hmark, refresh_eq]
    split
    · -- the value is the section itself
      rename_i hj
      rw [hv.root hj.2 j rfl, ← hold.root hmark j rfl]
      exact h.regrown
    · exact regrown_mapParts _ v

/-- Values follow the heap in which the change shows too. -/
theorem Change.patch_follows (h : Change heap old new) (hold : old.Follows heap)
    (hnum : old.IsNumbered) (hv : v.Follows heap) :
    (patch old new v).Follows fun i => patch old new (heap i) := by
  cases hmark : old.mark? with
  | none =>
    simp only [patch_of_mark?_eq_none hmark]
    exact hv
  | some mark =>
    obtain ⟨j, rfl⟩ := hnum mark hmark
    simp only [patch_of_mark?_eq_some hmark]
    have hj : heap j = old := (hold.root hmark j rfl).symm
    refine hv.refresh (h.regrown.mark?_eq.trans hmark) ?_ ?_
    · rw [hj]
      exact h.regrown.refresh_eq hmark
    · refine fun w hw => (h.parts hold w hw).mono fun mark x hx i heq => ?_
      refine ⟨(hx i heq).1, ?_⟩
      -- the section is not among the nodes in its parts, which are smaller
      rintro rfl
      have hsize := (hx i heq).2
      rw [(hx i heq).1, hj] at hsize
      exact Nat.lt_irrefl _ hsize

/-- The changed section follows the heap in which the change shows too. -/
theorem Change.new_follows (h : Change heap old new) (hold : old.Follows heap)
    (hnum : old.IsNumbered) : new.Follows fun i => patch old new (heap i) := by
  cases hmark : old.mark? with
  | none =>
    simp only [patch_of_mark?_eq_none hmark]
    refine marked_of_mark?_eq_none (h.regrown.mark?_eq.trans hmark) fun w hw => ?_
    exact (h.parts hold w hw).mono fun mark x hx i heq => (hx i heq).1
  | some mark =>
    have hnew : patch old new old = new := by
      rw [patch_of_mark?_eq_some hmark]
      exact h.regrown.refresh_eq hmark
    have := h.patch_follows hold hnum hold
    rwa [hnew] at this

/-- A changed section is inserted, and then shows in every place of it. -/
theorem putSection_eq (key : String) (old new : Value) (entries : List (Atom × Value)) :
    putSection key old new entries =
      Assoc.mapValues (patch old new) (Assoc.insert (.text key) new entries) := by
  unfold putSection
  cases hmark : old.mark? with
  | none =>
    simp only
    rw [Assoc.mapValues_eq_self fun e _ => patch_of_mark?_eq_none hmark new e.2]
  | some mark =>
    simp only
    rw [refreshEntries_eq_mapValues]
    exact Assoc.mapValues_congr fun e _ => (patch_of_mark?_eq_some hmark new e.2).symm

/-- A changed section is found under its key. -/
theorem get?_putSection_self (h : Regrown old new) (key : String) :
    Assoc.get? (.text key) (putSection key old new entries) = some new := by
  rw [putSection_eq, Assoc.get?_mapValues, Assoc.get?_insert_self (Atom.isExact_text key),
    Option.map_some, h.patch_new]

/-- A change of one section shows in the others where they have it. -/
theorem get?_putSection_of_ne {key key' : String} (hne : key ≠ key') :
    Assoc.get? (.text key') (putSection key old new entries) =
      (Assoc.get? (.text key') entries).map (patch old new) := by
  rw [putSection_eq, Assoc.get?_mapValues, Assoc.get?_insert_of_ne (Atom.isExact_text key)
    (Atom.isExact_text key') fun heq => hne (Atom.text.inj heq)]

/-- Another section, as it is after the change. -/
theorem get?_putSection_of_get? {key key' : String} (hne : key ≠ key')
    (h : Assoc.get? (.text key') entries = some v) (old new : Value) :
    Assoc.get? (.text key') (putSection key old new entries) = some (patch old new v) := by
  rw [get?_putSection_of_ne hne, h, Option.map_some]

/-- The sections of sound entries follow the heap and have no other marks than numbers. -/
theorem Sound.get? (h : Sound heap entries) {key : Atom} (hget : Assoc.get? key entries = some v) :
    v.Follows heap ∧ v.IsNumbered := by
  obtain ⟨k, hk⟩ := Assoc.mem_of_get? hget
  exact ⟨h.follows _ hk, h.numbered _ hk⟩

/-- The section of a sound document under a key, or an empty one. -/
theorem Sound.getD (h : Sound heap entries) (key : Atom) (kind : SectionKind) :
    ((Assoc.get? key entries).getD (emptySection kind)).Follows heap ∧
      ((Assoc.get? key entries).getD (emptySection kind)).IsNumbered := by
  cases hget : Assoc.get? key entries with
  | some v => exact h.get? hget
  | none =>
    cases kind <;>
      exact ⟨marked_of_mark?_eq_none rfl fun w hw => absurd hw List.not_mem_nil,
        fun mark hmark => absurd hmark nofun⟩

/-- Sound entries stay so with a changed section, for the heap in which it shows. -/
theorem Sound.putSection (h : Sound heap entries) (hold : old.Follows heap)
    (hnum : old.IsNumbered) (hchange : Change heap old new) (key : String) :
    Sound (fun i => patch old new (heap i)) (putSection key old new entries) := by
  rw [putSection_eq]
  refine ⟨?_, ?_⟩
  · rw [Assoc.forall_mem_mapValues]
    intro e he
    rcases Assoc.mem_insert he with hmem | hsame
    · exact hchange.patch_follows hold hnum (h.follows e hmem)
    · rw [hsame, hchange.regrown.patch_new]
      exact hchange.new_follows hold hnum
  · rw [Assoc.forall_mem_mapValues]
    intro e he mark hmark
    rcases Assoc.mem_insert he with hmem | hsame
    · rw [(hchange.patch_regrown hold hnum (h.follows e hmem)).mark?_eq] at hmark
      exact h.numbered e hmem mark hmark
    · rw [hsame, hchange.regrown.patch_new, hchange.regrown.mark?_eq] at hmark
      exact hnum mark hmark

/-- Nothing changes when an object stays as it is. -/
theorem Follows.patch_self (hv : v.Follows heap) (hold : old.Follows heap) (hnum : old.IsNumbered) :
    patch old old v = v := by
  cases hmark : old.mark? with
  | none => exact patch_of_mark?_eq_none hmark old v
  | some mark =>
    obtain ⟨j, rfl⟩ := hnum mark hmark
    rw [patch_of_mark?_eq_some hmark]
    refine refresh_eq_self (hv.mono fun mark x hx heq => ?_)
    rw [hx j heq, hold.root hmark j rfl]

/-- A section that stays as it is leaves the document as it is. -/
theorem Sound.putSection_self (h : Sound heap entries) {key : String}
    (hget : Assoc.get? (.text key) entries = some old) :
    Document.putSection key old old entries = entries := by
  obtain ⟨hfollows, hnum⟩ := h.get? hget
  rw [putSection_eq, Assoc.insert_eq_self hget]
  exact Assoc.mapValues_eq_self fun e he => Follows.patch_self (h.follows e he) hfollows hnum

end Document

end ApiDoc
