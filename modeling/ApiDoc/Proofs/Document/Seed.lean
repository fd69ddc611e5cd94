import ApiDoc.Proofs.Document.Shape

/-!
# The document of a seed

A document starts as its seed, with the sections that the seed lacks. If the seed was read or given
then the document is sound (`ofSeed_sound`), and if its sections have the shapes of sections then
every fragment can be merged into the document (`ofSeed_open`).
-/

namespace ApiDoc

namespace Document

open Value

/-- A section of the document of a seed is that of the seed, or else the empty one. -/
theorem get?_withSections (key : String) (entries : List (Atom × Value))
    (sections : List (String × Value)) :
    Assoc.get? (.text key) (withSections entries sections) =
      (Assoc.get? (.text key) entries).or (Assoc.get? key sections) := by
  induction sections generalizing entries with
  | nil => rw [withSections, Assoc.get?, Option.or_none]
  | cons s sections ih =>
    obtain ⟨k, v⟩ := s
    rw [withSections, ih, Assoc.get?_insertNew (Atom.isExact_text key), Option.or_assoc]
    congr 1
    have hkey : (Atom.text k == Atom.text key) = (k == key) := rfl
    simp only [Assoc.get?, hkey]
    split <;> rfl

/-- The entries of a document are those of the seed and the initial sections. -/
theorem mem_withSections {entries : List (Atom × Value)} {sections : List (String × Value)}
    {e : Atom × Value} (h : e ∈ withSections entries sections) :
    e ∈ entries ∨ ∃ s ∈ sections, e = (.text s.1, s.2) := by
  induction sections generalizing entries with
  | nil => exact .inl h
  | cons s sections ih =>
    rcases ih h with hmem | ⟨s', hs', heq⟩
    · unfold Assoc.insertNew at hmem
      split at hmem
      · exact .inl hmem
      · rcases List.mem_append.1 hmem with hold | hnew
        · exact .inl hold
        · exact .inr ⟨s, List.mem_cons_self, List.mem_singleton.1 hnew⟩
    · exact .inr ⟨s', List.mem_cons_of_mem s hs', heq⟩

/-- An entry of the document of a seed is one of the seed, the version, or an empty section. -/
theorem mem_ofSeed {m m' : Option Mark} {seed entries : List (Atom × Value)}
    (h : ofSeed (.object m seed) = .ok (.object m' entries)) {e : Atom × Value} (he : e ∈ entries) :
    e ∈ seed ∨ e = (.text "swagger", .text "2.0") ∨
      ∃ s ∈ initialSections, e = (.text s.1, s.2) := by
  cases h
  rcases mem_withSections he with hmem | hsection
  · exact (Assoc.mem_insert_of_isExact (Atom.isExact_text "swagger") hmem).imp_right .inl
  · exact .inr (.inr hsection)

/-- What the entries of a seed and of the sections that every document has satisfy, the entries of
the document satisfy. -/
theorem forall_mem_ofSeed {P : Value → Prop} {m m' : Option Mark}
    {seed entries : List (Atom × Value)}
    (h : ofSeed (.object m seed) = .ok (.object m' entries)) (hseed : ∀ e ∈ seed, P e.2)
    (hversion : P (.text "2.0")) (hmap : P (.map [])) (hlist : P (.array [])) :
    ∀ e ∈ entries, P e.2 := by
  have hsections : ∀ s ∈ initialSections, P s.2 := by
    simp only [initialSections, List.forall_mem_cons, hmap, hlist, true_and]
    exact fun s hs => absurd hs List.not_mem_nil
  intro e he
  rcases mem_ofSeed h he with hold | rfl | ⟨s, hs, rfl⟩
  · exact hseed e hold
  · exact hversion
  · exact hsections s hs

/-- A predicate on nodes that holds in a seed holds in its document, if it holds of all that is
new. -/
theorem ofSeed_every {P : Value → Prop} (hP : HoldsOfNew P) (hlist : P (.array []))
    {m m' : Option Mark} {seed entries : List (Atom × Value)}
    (h : ofSeed (.object m seed) = .ok (.object m' entries)) (hseed : EveryIn P seed) :
    EveryIn P entries := by
  refine ⟨fun e he => ?_, ?_⟩
  · rcases mem_ofSeed h he with hold | rfl | ⟨s, -, rfl⟩
    · exact hseed.keys e hold
    · exact hP.text _
    · exact hP.text _
  · refine forall_mem_ofSeed h hseed.values (every_atom_iff.2 (hP.text _))
      (everyIn_nil.object (hP.map [])) (every_iff.2 ⟨hlist, ?_⟩)
    exact fun _ hw => absurd hw List.not_mem_nil

/-- A document can be made of every object, and it is an object. -/
theorem ofSeed_object (m : Option Mark) (seed : List (Atom × Value)) :
    ∃ entries, ofSeed (.object m seed) = .ok (.object m entries) :=
  ⟨_, rfl⟩

/-- The document of a seed is the same object. -/
theorem eq_object_of_ofSeed {seed document : Value} (h : ofSeed seed = .ok document) :
    ∃ m entries entries', seed = .object m entries ∧ document = .object m entries' := by
  unfold ofSeed at h
  split at h
  · cases h
    exact ⟨_, _, _, rfl, rfl⟩
  · cases h

/-- The document of a seed that was read has sound entries. -/
theorem ofSeed_sound {seed : Value} {m : Option Mark} {entries : List (Atom × Value)}
    (hread : seed.IsRead) (h : ofSeed seed = .ok (.object m entries)) :
    ∃ heap, Sound heap entries := by
  obtain ⟨m', old, entries', rfl, heq⟩ := eq_object_of_ofSeed h
  obtain ⟨heap, hmarked⟩ := hread
  have hunmarked : ∀ v : Value, v.mark? = none → v.parts = [] → v.Follows heap ∧ v.IsNumbered := by
    intro v hmark hparts
    refine ⟨marked_of_mark?_eq_none hmark fun w hw => ?_, fun mark hm => ?_⟩
    · rw [hparts] at hw
      exact absurd hw List.not_mem_nil
    · rw [hmark] at hm
      cases hm
  have hentries : ∀ e ∈ entries, e.2.Follows heap ∧ e.2.IsNumbered := by
    refine forall_mem_ofSeed (P := fun v => v.Follows heap ∧ v.IsNumbered) h (fun e he => ?_)
      (hunmarked _ rfl rfl) (hunmarked _ rfl rfl) (hunmarked _ rfl rfl)
    have hvalue := hmarked.part (snd_mem_parts he)
    refine ⟨hvalue.mono fun mark x hx i hi => ?_, fun mark hmark => ?_⟩
    · obtain ⟨j, hj, hxj⟩ := hx
      rw [hxj, Mark.node.inj (hj.symm.trans hi)]
    · obtain ⟨i, hi, -⟩ := hvalue.root hmark
      exact ⟨i, hi⟩
  exact ⟨heap, fun e he => (hentries e he).1, fun e he => (hentries e he).2⟩

/-- A seed or a document whose paths are an object of objects, whose groups are a list of objects
and whose definitions are an object, as far as it has them. -/
structure HasShape (document : Value) : Prop where
  paths : ∀ v, document.field? "paths" = some v → v.isObject = true ∧ v.holdsObjects = true
  tags : ∀ v, document.field? "tags" = some v → v.isList = true ∧ v.holdsObjects = true
  definitions : ∀ v, document.field? "definitions" = some v → v.isObject = true

/-- The document of a seed has its sections, or else the initial ones. -/
theorem get?_ofSeed {m m' : Option Mark} {seed entries : List (Atom × Value)}
    (h : ofSeed (.object m seed) = .ok (.object m' entries)) {key : String}
    (hkey : key ≠ "swagger") :
    Assoc.get? (.text key) entries =
      ((Value.object m seed).field? key).or (Assoc.get? key initialSections) := by
  cases h
  rw [get?_withSections, Assoc.get?_insert_of_ne (Atom.isExact_text _) (Atom.isExact_text key)
    fun heq => hkey (Atom.text.inj heq).symm, field?]

/-- A seed has the shape that its document has. -/
theorem HasShape.of_ofSeed {seed document : Value} (h : ofSeed seed = .ok document)
    (hshape : HasShape document) : HasShape seed := by
  obtain ⟨m, old, entries, rfl, rfl⟩ := eq_object_of_ofSeed h
  have hfield : ∀ {key : String}, key ≠ "swagger" → ∀ v, (Value.object m old).field? key = some v →
      (Value.object m entries).field? key = some v := by
    intro key hkey v hv
    rw [field?, get?_ofSeed h hkey, hv, Option.some_or]
  exact ⟨fun v hv => hshape.paths v (hfield (by decide) v hv),
    fun v hv => hshape.tags v (hfield (by decide) v hv),
    fun v hv => hshape.definitions v (hfield (by decide) v hv)⟩

/-- Every fragment can be merged into the document of a seed that was read or given and whose
sections have the shapes of sections. -/
theorem ofSeed_open {seed : Value} {m : Option Mark} {entries : List (Atom × Value)}
    (hread : seed.IsRead) (hshape : HasShape seed) (h : ofSeed seed = .ok (.object m entries)) :
    Open entries := by
  refine ⟨ofSeed_sound hread h, ?_⟩
  obtain ⟨m', old, entries', rfl, heq⟩ := eq_object_of_ofSeed h
  -- a section is that of the seed, or an empty one
  have hsection : ∀ {key : String} {P : Value → Prop} (empty : Value), key ≠ "swagger" →
      Assoc.get? key initialSections = some empty → P empty →
      (∀ v, (Value.object m' old).field? key = some v → P v) →
      ∃ v, Assoc.get? (.text key) entries = some v ∧ P v := by
    intro key P empty hkey hempty hPempty hP
    rw [get?_ofSeed h hkey, hempty]
    cases hfield : (Value.object m' old).field? key with
    | none => exact ⟨empty, rfl, hPempty⟩
    | some v => exact ⟨v, rfl, hP v hfield⟩
  exact ⟨hsection (.map []) (by decide) rfl ⟨rfl, rfl⟩ hshape.paths,
    hsection (.array []) (by decide) rfl ⟨rfl, rfl⟩ hshape.tags,
    hsection (.map []) (by decide) rfl rfl hshape.definitions⟩

/-! ## A seed with a shared section -/

/-- The entries of a seed whose paths and definitions are one object. -/
def sharedSections : List (Atom × Value) :=
  [(.text "paths", .object (some (.node 0)) []), (.text "definitions", .object (some (.node 0)) [])]

/-- Entries with one and the same object are as they are read. -/
theorem isRead_of_one_object {es : List (Atom × Value)}
    (hkeys : ∀ e ∈ es, (Value.atom e.1).mark? = none)
    (h : ∀ e ∈ es, e.2 = .object (some (.node 0)) []) : (Value.map es).IsRead := by
  refine ⟨fun _ => .object (some (.node 0)) [], MarkedEntries.map ⟨fun e he => ?_, fun e he => ?_⟩⟩
  · exact marked_atom (hkeys e he)
  · rw [h e he]
    refine marked_iff.2 ⟨fun mark hmark => ?_, fun w hw => absurd hw List.not_mem_nil⟩
    exact ⟨0, (Option.some.inj hmark).symm, rfl⟩

/-- Such a seed is one that is read from a text. -/
theorem sharedSections_isRead : (Value.map sharedSections).IsRead :=
  isRead_of_one_object (by decide) (by simp [sharedSections])

end Document

end ApiDoc
