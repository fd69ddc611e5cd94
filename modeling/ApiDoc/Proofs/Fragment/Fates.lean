import ApiDoc.Proofs.Document.Generation
import ApiDoc.Proofs.Fragment.Failure

/-!
# What becomes of tags

In a block that does not start with a typedef, each tag has one fate (`fates`): it is reported, it
opens an operation, it is read once for the whole block, or it is attached to the operation of the
nearest route in front of it. No tag is lost: what the block reports are the tags that are reported,
and each operation is made of the tags that are attached to it (`ofBlock_fates`).
-/

namespace ApiDoc

/-- Whether a notice says that a parameter has no location. -/
def Notice.isMissingLocation : Notice → Bool
  | .missingLocation .. => true
  | _ => false

namespace Fragment

/-- Whether a tag opens an operation. -/
def isRoute (tag : Tag) : Bool := tag.kind? == some .route

/-- Routes are told by the kind of the tag. -/
theorem isRoute_iff {tag : Tag} : isRoute tag = true ↔ tag.kind? = some .route := beq_iff_eq

/-- What becomes of a tag. -/
inductive Fate where
  /-- The tag is reported, and that is all. -/
  | reported (notice : Notice)
  /-- The tag opens an operation. -/
  | opening
  /-- The tag is read once for the whole block. -/
  | shared
  /-- The tag is attached to one of the operations, which are counted from zero. -/
  | attached (operation : Nat)
  deriving DecidableEq

/-- What a fate reports. -/
def Fate.notice? : Fate → Option Notice
  | .reported notice => some notice
  | _ => none

/-- What becomes of a tag with a number of routes in front of it. -/
def fateOf (routes : Nat) (tag : Tag) : Fate :=
  match tag.kind? with
  | none => .reported (.unknownTag tag.title)
  | some .route => .opening
  | some .group | some .headers | some .header => .shared
  | some .typedef | some .property => .reported (.misplacedDefinition tag.title)
  | some _ =>
    match routes with
    | 0 => .reported (.beforeRoute tag.title)
    | k + 1 => .attached k

/-- The tags of a block and what becomes of each. -/
def fates (tags : List Tag) : List (Tag × Fate) :=
  tags.mapIdx fun i tag => (tag, fateOf ((tags.take i).countP isRoute) tag)

/-- The tags that are attached to an operation. -/
def attachedTo (k : Nat) (fs : List (Tag × Fate)) : List Tag :=
  (fs.filter (·.2 == .attached k)).map Prod.fst

/-! ## One tag -/

variable {n k : Nat} {tag : Tag} {tags : List Tag}

/-- A tag is attached if it belongs to an operation and a route stands in front of it. -/
theorem fateOf_eq_attached_iff :
    fateOf n tag = .attached k ↔ isAttached tag = true ∧ n = k + 1 := by
  unfold fateOf isAttached
  cases tag.kind? with
  | none => simp
  | some kind => cases kind <;> cases n <;> simp [TagKind.isBlockLevel, TagKind.isDefinition]

/-- Apart from missing locations, a tag reports what its fate says. -/
theorem tagNotices_eq (n : Nat) (tag : Tag) :
    (tagNotices (decide (0 < n)) tag).filter (!·.isMissingLocation) =
      (fateOf n tag).notice?.toList := by
  have hparameter : (Operation.notices tag).filter (!·.isMissingLocation) = [] := by
    unfold Operation.notices Parameter.notices
    split
    · simp only
      split <;> rfl
    · rfl
  unfold tagNotices fateOf
  cases tag.kind? with
  | none => rfl
  | some kind =>
    cases kind with
    | route | group | headers | header | typedef | property => rfl
    | _ =>
      cases n with
      | zero => rfl
      | succ _ => exact hparameter

/-! ## All tags, from the first one on -/

/-- What becomes of tags that have a number of routes in front of them. -/
def fatesFrom : Nat → List Tag → List (Tag × Fate)
  | _, [] => []
  | n, tag :: rest => (tag, fateOf n tag) :: fatesFrom (if isRoute tag then n + 1 else n) rest

/-- The fate of a tag depends on how many routes are in front of it. -/
theorem fatesFrom_eq_mapIdx (n : Nat) (tags : List Tag) :
    fatesFrom n tags =
      tags.mapIdx fun i tag => (tag, fateOf (n + (tags.take i).countP isRoute) tag) := by
  induction tags generalizing n with
  | nil => rfl
  | cons tag tags ih =>
    rw [fatesFrom, ih, List.mapIdx_cons]
    simp only [List.take_zero, List.countP_nil, Nat.add_zero, List.take_succ_cons,
      List.countP_cons]
    congr 2
    funext i tag'
    split <;> simp only [Nat.add_zero, Nat.add_assoc, Nat.add_comm 1]

/-- The tags of a block have no routes in front of them. -/
theorem fatesFrom_zero (tags : List Tag) : fatesFrom 0 tags = fates tags := by
  rw [fatesFrom_eq_mapIdx, fates]
  simp only [Nat.zero_add]

/-! ## Notices -/

/-- A tag that makes a block fail is behind a route and cannot be read. -/
theorem isUnreadable_of_isFaulty {opened : Bool} (h : isFaulty opened tag = true) :
    opened = true ∧ tag.IsUnreadable := by
  simp only [isFaulty, Bool.and_eq_true, beq_iff_eq] at h
  obtain ⟨⟨hopened, hkind⟩, hread⟩ := h
  cases hsecurity : securityOf tag.text with
  | ok v =>
    rw [hsecurity] at hread
    cases hread
  | error fault =>
    obtain rfl := eq_longInteger_of_securityOf hsecurity
    exact ⟨hopened, hkind, hsecurity⟩

/-- If all attached tags can be read, then the walk goes on to the end and reports the fates that
are reported. -/
theorem walkNotices_eq (h : ∀ tag k, (tag, .attached k) ∈ fatesFrom n tags → ¬ tag.IsUnreadable) :
    (walkNotices (decide (0 < n)) tags).filter (!·.isMissingLocation) =
      (fatesFrom n tags).filterMap (·.2.notice?) := by
  induction tags generalizing n with
  | nil => rfl
  | cons tag tags ih =>
    have hfaulty : ¬ isFaulty (decide (0 < n)) tag = true := by
      intro hfaulty
      obtain ⟨hopened, hunreadable⟩ := isUnreadable_of_isFaulty hfaulty
      obtain ⟨k, rfl⟩ := Nat.exists_eq_add_one.2 (of_decide_eq_true hopened)
      have hfate : fateOf (k + 1) tag = .attached k := by
        rw [fateOf_eq_attached_iff, isAttached, hunreadable.kind]
        exact ⟨rfl, rfl⟩
      exact h tag k (hfate ▸ List.mem_cons_self) hunreadable
    have hopened : (decide (0 < n) || tag.kind? == some .route) =
        decide (0 < if isRoute tag then n + 1 else n) := by
      change (decide (0 < n) || isRoute tag) = _
      cases isRoute tag with
      | true => simp
      | false => simp
    rw [walkNotices, if_neg hfaulty, List.filter_append, tagNotices_eq, hopened,
      ih fun tag k hmem => h tag k (List.mem_cons_of_mem _ hmem), fatesFrom, List.filterMap_cons]
    cases (fateOf n tag).notice? <;> rfl

/-! ## Operations -/

/-- A tag is attached to an operation just if that is its fate. -/
theorem attachedTo_cons (k : Nat) (tag : Tag) (fate : Fate) (fs : List (Tag × Fate)) :
    attachedTo k ((tag, fate) :: fs) =
      (if fate = .attached k then [tag] else []) ++ attachedTo k fs := by
  by_cases hfate : fate = .attached k
  · simp [attachedTo, hfate]
  · simp [attachedTo, hfate]

/-- No tag is attached to an operation with another route between them. -/
theorem attachedTo_fatesFrom_of_lt (h : k + 1 < n) (tags : List Tag) :
    attachedTo k (fatesFrom n tags) = [] := by
  induction tags generalizing n with
  | nil => rfl
  | cons tag tags ih =>
    have hfate : ¬ fateOf n tag = .attached k := by
      rw [fateOf_eq_attached_iff]
      omega
    rw [fatesFrom, attachedTo_cons, if_neg hfate, List.nil_append]
    split
    · exact ih (by omega)
    · exact ih h

/-- The tags in front of the next route are attached to the operation that is open. -/
theorem attachedTo_fatesFrom_front (k : Nat) (tags : List Tag) :
    attachedTo k (fatesFrom (k + 1) tags) = (segments tags).1.filter isAttached := by
  induction tags with
  | nil => rfl
  | cons tag tags ih =>
    rw [fatesFrom, attachedTo_cons]
    simp only [fateOf_eq_attached_iff, and_true]
    by_cases hroute : tag.kind? = some .route
    · have hattached : ¬ isAttached tag = true := by
        rw [isAttached, hroute]
        decide
      rw [segments_cons_route hroute, if_neg hattached, if_pos (isRoute_iff.2 hroute)]
      exact attachedTo_fatesFrom_of_lt (Nat.lt_succ_self _) tags
    · rw [segments_cons_of_ne hroute, if_neg (mt isRoute_iff.1 hroute), ih, List.filter_cons]
      split <;> rfl

/-- The tags behind each route are attached to its operation. -/
theorem attachedTo_fatesFrom (n k : Nat) (tags : List Tag) :
    attachedTo (n + k) (fatesFrom n tags) =
      ((segments tags).2[k]?).elim [] (·.2.filter isAttached) := by
  induction tags generalizing n k with
  | nil => rfl
  | cons tag tags ih =>
    have hfate : ¬ fateOf n tag = .attached (n + k) := by
      rw [fateOf_eq_attached_iff]
      omega
    rw [fatesFrom, attachedTo_cons, if_neg hfate, List.nil_append]
    by_cases hroute : tag.kind? = some .route
    · rw [segments_cons_route hroute, if_pos (isRoute_iff.2 hroute)]
      -- the route opens the operation with number `n`
      cases k with
      | zero => exact attachedTo_fatesFrom_front n tags
      | succ k => rw [List.getElem?_cons_succ, ← ih (n + 1) k, Nat.add_right_comm, Nat.add_assoc]
    · rw [segments_cons_of_ne hroute, if_neg (mt isRoute_iff.1 hroute)]
      exact ih n k

/-- The segments behind the first start with the routes, in order. -/
theorem segments_map_fst (tags : List Tag) :
    (segments tags).2.map Prod.fst = tags.filter isRoute := by
  induction tags with
  | nil => rfl
  | cons tag tags ih =>
    rw [List.filter_cons]
    by_cases hroute : tag.kind? = some .route
    · rw [segments_cons_route hroute, if_pos (isRoute_iff.2 hroute), List.map_cons, ih]
    · rw [segments_cons_of_ne hroute, if_neg (mt isRoute_iff.1 hroute), ih]

/-- Each operation is that of its route, with the tags behind that attached. -/
theorem operations_getElem? {group description : String} {headers : List (Atom × Value)}
    {routes : List (Tag × List Tag)} {ops : List Operation}
    (h : operations group description headers routes = .ok ops) :
    ops.length = routes.length ∧
      ∀ (k : Nat) op, ops[k]? = some op → ∃ s : Tag × List Tag, routes[k]? = some s ∧
      (Operation.opened (Route.ofText s.1.text) group description).addAll headers
        (s.2.filter isAttached) = .ok op := by
  induction routes generalizing ops with
  | nil =>
    cases h
    exact ⟨rfl, fun k op hop => by simp at hop⟩
  | cons s routes ih =>
    obtain ⟨op, ops', rfl, hop, hops⟩ := operations_cons h
    obtain ⟨hlength, hrest⟩ := ih hops
    refine ⟨by rw [List.length_cons, hlength, List.length_cons], fun k op' hop' => ?_⟩
    cases k with
    | zero =>
      obtain rfl := Option.some.inj hop'
      exact ⟨s, rfl, hop⟩
    | succ k => exact hrest k op' hop'

/-! ## Blocks -/

/-- A tag is attached to an operation that there is. -/
theorem lt_countP_of_mem_fates (h : (tag, .attached k) ∈ fates tags) : k < tags.countP isRoute := by
  obtain ⟨i, hi, heq⟩ := List.mem_mapIdx.1 h
  obtain ⟨-, hfate⟩ := Prod.mk.inj heq
  have hcount : (tags.take i).countP isRoute = k + 1 := (fateOf_eq_attached_iff.1 hfate).2
  have hle := (List.take_sublist i tags).countP_le (p := isRoute)
  omega

/-- A tag that is attached to an operation stands behind its route. -/
theorem exists_segment_of_mem_fates (h : (tag, .attached k) ∈ fates tags) :
    ∃ s ∈ (segments tags).2, tag ∈ s.2 := by
  have hmem : tag ∈ attachedTo (0 + k) (fatesFrom 0 tags) := by
    rw [Nat.zero_add, fatesFrom_zero]
    exact List.mem_map.2 ⟨_, List.mem_filter.2 ⟨h, beq_self_eq_true _⟩, rfl⟩
  rw [attachedTo_fatesFrom] at hmem
  cases hs : (segments tags).2[k]? with
  | none =>
    rw [hs] at hmem
    cases hmem
  | some s =>
    rw [hs] at hmem
    exact ⟨s, List.mem_of_getElem? hs, (List.mem_filter.1 hmem).1⟩

/-- Of a block that does not start with a typedef and can be read, no tag is lost. Apart from
missing locations it reports, in order, exactly the tags whose fate is to be reported. Its
operations are those of its routes, and each of them is made of the tags that are attached to it,
one after another. Its groups are its own group, once for each route. -/
theorem ofBlock_fates {markOf : String → Option Mark} {b : Block} {f : Fragment}
    (hfirst : ∀ head ∈ b.tags.head?, head.kind? ≠ some .typedef) (hf : ofBlock markOf b = .ok f) :
    (notices b).filter (!·.isMissingLocation) = (fates b.tags).filterMap (·.2.notice?) ∧
    (∀ n ∈ notices b, n.level = .warning) ∧
    (∃ ops : List Operation, f.paths = ops.foldl addOperation [] ∧
      ops.length = b.tags.countP isRoute ∧
      (∀ tag k, (tag, .attached k) ∈ fates b.tags → k < ops.length) ∧
      ∀ (k : Nat) op, ops[k]? = some op → ∃ route, (b.tags.filter isRoute)[k]? = some route ∧
        (Operation.opened (Route.ofText route.text) (Group.ofTags b.tags).name
          (descriptionOf b)).addAll ((HeaderTable.ofTags b.tags).toEntries markOf)
            (attachedTo k (fates b.tags)) = .ok op) ∧
    f.groups = List.replicate (b.tags.countP isRoute) (Group.ofTags b.tags) := by
  obtain ⟨head, rest, name, d, htags, hkind, -⟩ | ⟨ops, hops, rfl⟩ := ofBlock_cases hf
  · exact absurd hkind (hfirst head (by rw [htags]; rfl))
  have hnotices : notices b = walkNotices false b.tags := by
    unfold notices
    split
    · rename_i htags
      rw [htags]
      rfl
    · rename_i head rest htags
      rw [if_neg]
      rw [beq_iff_eq]
      exact hfirst head (by rw [htags]; rfl)
  -- the block was read, so no tag that is attached is unreadable
  have hread : ∀ tag k, (tag, .attached k) ∈ fatesFrom 0 b.tags → ¬ tag.IsUnreadable := by
    intro tag k hmem hunreadable
    obtain ⟨s, hs, htag⟩ := exists_segment_of_mem_fates (fatesFrom_zero b.tags ▸ hmem)
    rw [operations_eq_error_iff.2 ⟨rfl, s, hs, tag, htag, hunreadable⟩] at hops
    cases hops
  obtain ⟨hlength, hop⟩ := operations_getElem? hops
  have hcount : ops.length = b.tags.countP isRoute := by
    rw [hlength, List.countP_eq_length_filter, ← segments_map_fst, List.length_map]
  refine ⟨?_, ?_, ⟨ops, rfl, hcount, fun tag k hmem => ?_, fun k op hk => ?_⟩, ?_⟩
  · rw [hnotices, ← fatesFrom_zero]
    exact walkNotices_eq hread
  · rw [hnotices]
    exact Document.level_walkNotices false b.tags
  · rw [hcount]
    exact lt_countP_of_mem_fates hmem
  · obtain ⟨s, hs, hadd⟩ := hop k op hk
    refine ⟨s.1, ?_, ?_⟩
    · rw [← segments_map_fst, List.getElem?_map, hs]
      rfl
    · have hattached := attachedTo_fatesFrom 0 k b.tags
      rw [Nat.zero_add, fatesFrom_zero, hs] at hattached
      rw [hattached]
      exact hadd
  · rw [← hcount]
    exact List.map_const'

/-- Two routes, with tags that are reported in front of them and between them. -/
def strayTags : Block where
  tags := [{ title := "example", description := some "GET /pets" },
    { title := "param", name := some "id.path" },
    { title := "group", description := some "pets" },
    { title := "route", description := some "GET /pets" },
    { title := "summary", description := some "List pets" },
    { title := "property", name := some "id" },
    { title := "route", description := some "POST /pets" },
    { title := "param", name := some "pet" }]

/-- Three tags are reported, besides the location that the last one lacks. The summary is attached
to the first of two operations and the last parameter to the second one. -/
theorem ofBlock_fates_strayTags :
    ∃ f, ofBlock (fun _ => none) strayTags = .ok f ∧
      (notices strayTags).filter (!·.isMissingLocation) =
        [.unknownTag "example", .beforeRoute "param", .misplacedDefinition "property"] ∧
      (∃ ops : List Operation, f.paths = ops.foldl addOperation [] ∧ ops.length = 2) ∧
      (attachedTo 0 (fates strayTags.tags)).map Tag.title = ["summary"] ∧
      (attachedTo 1 (fates strayTags.tags)).map (·.name) = [some "pet"] ∧
      f.groups = [⟨"pets", ""⟩, ⟨"pets", ""⟩] := by
  obtain ⟨f, hf⟩ : ∃ f, ofBlock (fun _ => none) strayTags = .ok f :=
    exists_ok_of_isSome_toOption (by decide +kernel)
  have hfirst : ∀ head ∈ strayTags.tags.head?, head.kind? ≠ some .typedef := by
    intro head hhead
    cases hhead
    decide +kernel
  have hreported : (fates strayTags.tags).filterMap (·.2.notice?) =
      [.unknownTag "example", .beforeRoute "param", .misplacedDefinition "property"] := by
    decide +kernel
  have hroutes : strayTags.tags.countP isRoute = 2 := by decide +kernel
  have hgroup : Group.ofTags strayTags.tags = ⟨"pets", ""⟩ := by decide +kernel
  obtain ⟨hnotices, -, ⟨ops, hpaths, hlength, -⟩, hgroups⟩ := ofBlock_fates hfirst hf
  refine ⟨f, hf, hnotices.trans hreported, ⟨ops, hpaths, hlength.trans hroutes⟩, by decide +kernel,
    by decide +kernel, ?_⟩
  rw [hgroups, hroutes, hgroup]
  rfl

end Fragment

end ApiDoc
