import ApiDoc.Proofs.Assoc

/-!
# Merging a series of entries

A merge takes in one entry after another, and a key may come in more than once. What a key has
afterwards depends on what it had before and on what came in under it, in order, and on nothing
else (`get?_mergeWith`). Facts about whole merges follow from this view of one key:

* a merge meets a condition at each step if it does so key by key (`admits_iff`);
* a merge changes nothing if, key by key, it ends where it started (`mapValues_mergeWith_eq_self`),
  whatever it writes on the way; so it can be repeated if that is so key by key
  (`mergeWith_repeats`);
* the keys afterwards are those before and the new ones, each once (`keys_mergeWith`).

Keys are compared by an equivalence that need not be equality.
-/

namespace ApiDoc.Assoc

variable {κ β γ δ : Type} [BEq κ]

/-! ## What comes in under a key -/

/-- The values of entries under a key, in order. -/
def given (key : κ) (a : Assoc κ γ) : List γ := (a.filter fun e => e.1 == key).map Prod.snd

/-- An entry under the key comes first in what is given under it. -/
theorem given_cons_of_beq {key k : κ} (h : (k == key) = true) (c : γ) (a : Assoc κ γ) :
    given key ((k, c) :: a) = c :: given key a := by
  simp only [given, List.filter_cons, h, if_true, List.map_cons]

/-- An entry under another key gives nothing. -/
theorem given_cons_of_not_beq {key k : κ} (h : ¬(k == key) = true) (c : γ) (a : Assoc κ γ) :
    given key ((k, c) :: a) = given key a := by
  simp only [given, List.filter_cons, h, if_false, Bool.false_eq_true]

/-- What entries in a row give under a key, part by part. -/
theorem given_flatMap {α : Type} (key : κ) (g : α → Assoc κ γ) (l : List α) :
    given key (l.flatMap g) = l.flatMap fun x => given key (g x) := by
  simp only [given, List.filter_flatMap, List.map_flatMap]

/-- A value is given under a key just if an entry under an equal key has it. -/
theorem mem_given {key : κ} {c : γ} {a : Assoc κ γ} :
    c ∈ given key a ↔ ∃ k, (k, c) ∈ a ∧ (k == key) = true := by
  simp only [given, List.mem_map, List.mem_filter]
  constructor
  · rintro ⟨⟨k, c'⟩, ⟨hmem, hk⟩, rfl⟩
    exact ⟨k, hmem, hk⟩
  · rintro ⟨k, hmem, hk⟩
    exact ⟨(k, c), ⟨hmem, hk⟩, rfl⟩

/-- What is there after values were combined with it, one after another. -/
def combine (f : Option β → γ → β) (x : Option β) (cs : List γ) : Option β :=
  cs.foldl (fun x c => some (f x c)) x

@[simp] theorem combine_nil (f : Option β → γ → β) (x : Option β) : combine f x [] = x := rfl

@[simp] theorem combine_cons (f : Option β → γ → β) (x : Option β) (c : γ) (cs : List γ) :
    combine f x (c :: cs) = combine f (some (f x c)) cs :=
  rfl

/-- A function on the values that come in may be left to the combination. -/
theorem combine_map {α : Type} (f : Option β → γ → β) (x : Option β) (g : α → γ) (cs : List α) :
    combine f x (cs.map g) = combine (fun x c => f x (g c)) x cs :=
  List.foldl_map

/-- From a value on there is always a value. -/
theorem combine_some (f : Option β → γ → β) (x : β) (cs : List γ) :
    combine f (some x) cs = some (cs.foldl (fun x c => f (some x) c) x) := by
  induction cs generalizing x with
  | nil => rfl
  | cons c cs ih => exact ih _

/-- Where a value came in there is one afterwards. -/
theorem exists_combine_eq_some (f : Option β → γ → β) (x : Option β) {cs : List γ} (hcs : cs ≠ []) :
    ∃ y, combine f x cs = some y := by
  cases cs with
  | nil => exact absurd rfl hcs
  | cons c cs => exact ⟨_, combine_some f (f x c) cs⟩

/-- Of values that replace each other the last one stays. -/
theorem combine_last (x : Option β) (cs : List β) :
    combine (fun _ c => c) x cs = cs.getLast?.or x := by
  induction cs generalizing x with
  | nil => rfl
  | cons c cs ih =>
    rw [combine_cons, ih, List.getLast?_cons]
    cases cs.getLast? <;> rfl

/-- Of values that do not replace each other the first one stays. -/
theorem combine_first (x : Option β) (cs : List β) :
    combine (fun x c => x.getD c) x cs = x.or cs.head? := by
  induction cs generalizing x with
  | nil => cases x <;> rfl
  | cons c cs ih =>
    rw [combine_cons, ih]
    cases x <;> rfl

/-- What is found under a key is the value of an entry under an equal key. -/
theorem exists_mem_of_get? {key : κ} {v : β} {m : Assoc κ β} (h : get? key m = some v) :
    ∃ k, (k, v) ∈ m ∧ (k == key) = true := by
  induction m with
  | nil => cases h
  | cons e m ih =>
    obtain ⟨k, w⟩ := e
    rw [get?] at h
    split at h
    · rename_i hk
      cases h
      exact ⟨k, List.mem_cons_self, hk⟩
    · obtain ⟨k', hmem, hk'⟩ := ih h
      exact ⟨k', List.mem_cons_of_mem _ hmem, hk'⟩

/-- A key that is not there is inserted at the end. -/
theorem insert_eq_append {key : κ} {m : Assoc κ β} (h : get? key m = none) (v : β) :
    insert key v m = m ++ [(key, v)] := by
  induction m with
  | nil => rfl
  | cons e m ih =>
    obtain ⟨k, w⟩ := e
    rw [get?] at h
    split at h
    · cases h
    · rename_i hk
      rw [insert, if_neg hk, ih h, List.cons_append]

/-- Inserting a new key is altering it to keep what is there. -/
theorem insertNew_eq_alter (key : κ) (v : β) (m : Assoc κ β) :
    insertNew key v m = alter key (fun x => x.getD v) m := by
  unfold insertNew has
  cases hget : get? key m with
  | some w =>
    rw [alter, hget]
    exact (insert_eq_self hget).symm
  | none =>
    rw [alter, hget]
    exact (insert_eq_append hget v).symm

variable [EquivBEq κ]

/-- Equal keys find the same. -/
theorem get?_congr {k k' : κ} (h : (k == k') = true) (m : Assoc κ β) : get? k m = get? k' m := by
  induction m with
  | nil => rfl
  | cons e m ih =>
    obtain ⟨key, v⟩ := e
    rw [get?, get?, BEq.congr_right h, ih]

/-- Equal keys are given the same. -/
theorem given_congr {k k' : κ} (h : (k == k') = true) (a : Assoc κ γ) : given k a = given k' a := by
  simp only [given, fun key : κ => (BEq.congr_right h : (key == k) = (key == k'))]

/-- What a key has after an insertion: the new value, if it equals the key of that. -/
theorem get?_insert (key key' : κ) (v : β) (m : Assoc κ β) :
    get? key' (insert key v m) = if key == key' then some v else get? key' m := by
  induction m with
  | nil => rfl
  | cons e m ih =>
    obtain ⟨k, w⟩ := e
    by_cases hk : (k == key) = true
    · rw [insert, if_pos hk, get?, get?, BEq.congr_left hk]
      split <;> rfl
    · rw [insert, if_neg hk, get?, get?, ih]
      by_cases hkey : (key == key') = true
      · have hne : ¬(k == key') = true := fun h => hk (BEq.trans h (BEq.symm hkey))
        rw [if_neg hne, if_pos hkey, if_pos hkey]
      · rw [if_neg hkey, if_neg hkey]

/-- What a key has after another was altered: a new value, if the two are equal. -/
theorem get?_alter (key key' : κ) (f : Option β → β) (m : Assoc κ β) :
    get? key' (alter key f m) = if key == key' then some (f (get? key' m)) else get? key' m := by
  rw [alter, get?_insert]
  split
  · rename_i h
    rw [get?_congr h]
  · rfl

/-- What a key has after a merge: what it had, combined with all that came in under it. -/
theorem get?_mergeWith (f : Option β → γ → β) (key : κ) (m : Assoc κ β) (a : Assoc κ γ) :
    get? key (mergeWith f m a) = combine f (get? key m) (given key a) := by
  induction a generalizing m with
  | nil => rfl
  | cons e a ih =>
    obtain ⟨k, c⟩ := e
    rw [mergeWith, ih, get?_alter]
    by_cases hk : (k == key) = true
    · rw [if_pos hk, given_cons_of_beq hk, combine_cons]
    · rw [if_neg hk, given_cons_of_not_beq hk]

/-- What a key has after an update: the last that came in under it, or else what it had. -/
theorem get?_update_eq_or (key : κ) (m a : Assoc κ β) :
    get? key (update m a) = (given key a).getLast?.or (get? key m) := by
  rw [update_eq_mergeWith, get?_mergeWith, combine_last]

/-! ## Keys that differ -/

/-- No two entries are under equal keys. -/
def Different (m : Assoc κ β) : Prop := m.Pairwise fun e e' => (e.1 == e'.1) = false

instance (m : Assoc κ β) : Decidable (Different m) :=
  inferInstanceAs (Decidable (m.Pairwise fun e e' => (e.1 == e'.1) = false))

omit [EquivBEq κ] in
/-- Exact keys that are different do not equal each other. -/
theorem Distinct.different {m : Assoc κ β} (h : Distinct m) : Different m := by
  induction m with
  | nil => exact List.Pairwise.nil
  | cons e m ih =>
    refine List.pairwise_cons.2 ⟨fun e' he' => ?_, ih h.tail⟩
    exact (h.tail.exactKey e' he').beq_eq_false (h.head_not_mem e' he').symm

/-- A map gives under a key what it has under it. -/
theorem given_of_different {a : Assoc κ γ} (h : Different a) (key : κ) :
    given key a = (get? key a).toList := by
  induction a with
  | nil => rfl
  | cons e a ih =>
    obtain ⟨k, c⟩ := e
    obtain ⟨hhead, htail⟩ := List.pairwise_cons.1 h
    rw [get?]
    by_cases hk : (k == key) = true
    · -- an equal key further on would equal the first one
      have hrest : given key a = [] := by
        rw [given, List.filter_eq_nil_iff.2, List.map_nil]
        intro e he hkey
        exact Bool.false_ne_true ((hhead e he).symm.trans (BEq.trans hk (BEq.symm hkey)))
      rw [given_cons_of_beq hk, hrest, if_pos hk]
      rfl
    · rw [given_cons_of_not_beq hk, if_neg hk, ih htail]

/-- Where no two keys are equal every entry is found under its key. -/
theorem get?_of_mem_different {m : Assoc κ β} (h : Different m) {e : κ × β} (he : e ∈ m) :
    get? e.1 m = some e.2 := by
  have hgiven : e.2 ∈ given e.1 m := mem_given.2 ⟨e.1, he, BEq.rfl⟩
  rw [given_of_different h] at hgiven
  exact Option.mem_toList.1 hgiven

omit [EquivBEq κ] in
/-- Updating with entries under keys that are not there appends them. -/
theorem update_eq_append {m a : Assoc κ β} (h : Different (m ++ a)) : update m a = m ++ a := by
  induction a generalizing m with
  | nil => exact (List.append_nil m).symm
  | cons e a ih =>
    obtain ⟨k, v⟩ := e
    have hnone : get? k m = none := by
      rw [← Option.not_isSome_iff_eq_none, Option.isSome_iff_exists]
      rintro ⟨w, hw⟩
      obtain ⟨k', hmem, hk'⟩ := exists_mem_of_get? hw
      have hne := (List.pairwise_append.1 h).2.2 (k', w) hmem (k, v) List.mem_cons_self
      exact Bool.false_ne_true (hne.symm.trans hk')
    have happend : m ++ (k, v) :: a = (m ++ [(k, v)]) ++ a := by
      rw [List.append_assoc, List.singleton_append]
    rw [happend] at h ⊢
    rw [update, insert_eq_append hnone, ih h]

/-! ## Conditions at each step -/

/-- Whether each entry that is merged in meets a condition on what is there under its key. -/
def Admits (ok : Option β → γ → Prop) (f : Option β → γ → β) (m : Assoc κ β) : Assoc κ γ → Prop
  | [] => True
  | (k, c) :: rest => ok (get? k m) c ∧ Admits ok f (alter k (fun x => f x c) m) rest

/-- Whether each value that is combined with one that is there meets a condition on it. -/
def Accepts (ok : Option β → γ → Prop) (f : Option β → γ → β) (x : Option β) : List γ → Prop
  | [] => True
  | c :: rest => ok x c ∧ Accepts ok f (some (f x c)) rest

omit [EquivBEq κ] in
/-- Entries in a row meet a condition if the first part does, and then the second. -/
theorem admits_append {ok : Option β → γ → Prop} {f : Option β → γ → β} {m : Assoc κ β}
    {a b : Assoc κ γ} :
    Admits ok f m (a ++ b) ↔ Admits ok f m a ∧ Admits ok f (mergeWith f m a) b := by
  induction a generalizing m with
  | nil => exact ⟨fun h => ⟨trivial, h⟩, fun h => h.2⟩
  | cons e a ih =>
    rw [List.cons_append, Admits, Admits, ih, and_assoc]
    rfl

omit [BEq κ] [EquivBEq κ] in
/-- A function on the values that come in may be left to the condition. -/
theorem accepts_map {α : Type} {ok : Option β → γ → Prop} {f : Option β → γ → β} {x : Option β}
    {g : α → γ} {cs : List α} :
    Accepts ok f x (cs.map g) ↔ Accepts (fun x c => ok x (g c)) (fun x c => f x (g c)) x cs := by
  induction cs generalizing x with
  | nil => exact Iff.rfl
  | cons c cs ih => exact and_congr_right fun _ => ih

omit [EquivBEq κ] in
/-- Any merge meets the condition that always holds. -/
theorem admits_true (f : Option β → γ → β) (m : Assoc κ β) (a : Assoc κ γ) :
    Admits (fun _ _ => True) f m a := by
  induction a generalizing m with
  | nil => trivial
  | cons e a ih => exact ⟨trivial, ih _⟩

omit [BEq κ] [EquivBEq κ] in
/-- Any values meet the condition that always holds. -/
theorem accepts_true (f : Option β → γ → β) (x : Option β) (cs : List γ) :
    Accepts (fun _ _ => True) f x cs := by
  induction cs generalizing x with
  | nil => trivial
  | cons c cs ih => exact ⟨trivial, ih _⟩

omit [BEq κ] [EquivBEq κ] in
/-- What the condition says of the values alone holds of all of them. -/
theorem Accepts.forall_mem {ok : Option β → γ → Prop} {f : Option β → γ → β} {x : Option β}
    {cs : List γ} (h : Accepts ok f x cs) {p : γ → Prop} (hp : ∀ x c, ok x c → p c) :
    ∀ c ∈ cs, p c := by
  induction cs generalizing x with
  | nil => exact fun c hc => absurd hc List.not_mem_nil
  | cons c cs ih => exact List.forall_mem_cons.2 ⟨hp x c h.1, ih h.2⟩

/-- The condition is met at each step if it is met for each key that comes in. -/
theorem admits_iff {ok : Option β → γ → Prop} {f : Option β → γ → β} {m : Assoc κ β}
    {a : Assoc κ γ} :
    Admits ok f m a ↔ ∀ e ∈ a, Accepts ok f (get? e.1 m) (given e.1 a) := by
  induction a generalizing m with
  | nil => exact ⟨fun _ e he => absurd he List.not_mem_nil, fun _ => trivial⟩
  | cons e a ih =>
    obtain ⟨k, c⟩ := e
    -- what is asked of one key, before and after the first entry is taken in
    have hstep : ∀ key, (k == key) = true → (Accepts ok f (get? key m) (given key ((k, c) :: a)) ↔
        ok (get? k m) c ∧
          Accepts ok f (get? key (alter k (fun x => f x c) m)) (given key a)) := by
      intro key hkey
      rw [given_cons_of_beq hkey, get?_alter, if_pos hkey, get?_congr hkey]
      rfl
    have hother : ∀ key, ¬(k == key) = true → (Accepts ok f (get? key m) (given key ((k, c) :: a)) ↔
        Accepts ok f (get? key (alter k (fun x => f x c) m)) (given key a)) := by
      intro key hkey
      rw [given_cons_of_not_beq hkey, get?_alter, if_neg hkey]
    rw [Admits, ih, List.forall_mem_cons, hstep k BEq.rfl]
    constructor
    · rintro ⟨hok, hall⟩
      refine ⟨⟨hok, ?_⟩, fun e he => ?_⟩
      · by_cases hagain : ∃ e ∈ a, (e.1 == k) = true
        · obtain ⟨e, he, heq⟩ := hagain
          rw [← get?_congr heq, ← given_congr heq]
          exact hall e he
        · have hnil : given k a = [] := by
            rw [given, List.filter_eq_nil_iff.2, List.map_nil]
            exact fun e he heq => hagain ⟨e, he, heq⟩
          rw [hnil]
          trivial
      · by_cases hkey : (k == e.1) = true
        · exact (hstep e.1 hkey).2 ⟨hok, hall e he⟩
        · exact (hother e.1 hkey).2 (hall e he)
    · rintro ⟨⟨hok, -⟩, hall⟩
      refine ⟨hok, fun e he => ?_⟩
      by_cases hkey : (k == e.1) = true
      · exact ((hstep e.1 hkey).1 (hall e he)).2
      · exact (hother e.1 hkey).1 (hall e he)

/-- Of different entries each meets the condition on what was there before the merge. -/
theorem Admits.of_distinct {ok : Option β → γ → Prop} {f : Option β → γ → β} {m : Assoc κ β}
    {a : Assoc κ γ} (h : Admits ok f m a) (ha : Distinct a) : ∀ e ∈ a, ok (get? e.1 m) e.2 := by
  intro e he
  have haccepts := admits_iff.1 h e he
  rw [given_of_different ha.different, get?_of_mem ha he] at haccepts
  exact haccepts.1

omit [EquivBEq κ] in
/-- The condition is met at each step if it follows from what all values satisfy, those that come of
merging included. -/
theorem admits_of_values {ok : Option β → γ → Prop} {f : Option β → γ → β} {p : β → Prop}
    {a : Assoc κ γ}
    (hok : ∀ e ∈ a, ∀ x : Option β, (∀ y, x = some y → p y) → ok x e.2 ∧ p (f x e.2))
    {m : Assoc κ β} (hm : ∀ e ∈ m, p e.2) : Admits ok f m a := by
  induction a generalizing m with
  | nil => trivial
  | cons e a ih =>
    obtain ⟨k, c⟩ := e
    obtain ⟨hfirst, hrest⟩ := List.forall_mem_cons.1 hok
    have hthere : ∀ y, get? k m = some y → p y := by
      intro y hy
      obtain ⟨k', hk'⟩ := mem_of_get? hy
      exact hm _ hk'
    refine ⟨(hfirst _ hthere).1, ih hrest fun e he => ?_⟩
    rcases mem_insert he with hold | hnew
    · exact hm e hold
    · rw [hnew]
      exact (hfirst _ hthere).2

/-! ## Merging what is there already -/

omit [EquivBEq κ] in
/-- Each entry of a map takes in what comes under its key, and leaves the rest to the entries
behind it. -/
theorem mergeWith_cons (f : Option β → γ → β) (k : κ) (v : β) (m : Assoc κ β) (a : Assoc κ γ) :
    mergeWith f ((k, v) :: m) a =
      (k, ((a.filter fun e => k == e.1).map Prod.snd).foldl (fun x c => f (some x) c) v) ::
        mergeWith f m (a.filter fun e => !(k == e.1)) := by
  induction a generalizing v m with
  | nil => rfl
  | cons e a ih =>
    obtain ⟨key, c⟩ := e
    by_cases hk : (k == key) = true
    · have hstep : alter key (fun x => f x c) ((k, v) :: m) = (k, f (some v) c) :: m := by
        rw [alter, get?, if_pos hk, insert, if_pos hk]
      rw [mergeWith, hstep, ih]
      simp only [List.filter_cons, hk, if_true, Bool.not_true, Bool.false_eq_true, if_false,
        List.map_cons, List.foldl_cons]
    · have hstep : alter key (fun x => f x c) ((k, v) :: m) =
          (k, v) :: alter key (fun x => f x c) m := by
        rw [alter, get?, if_neg hk, insert, if_neg hk, alter]
      rw [Bool.not_eq_true] at hk
      rw [mergeWith, hstep, ih]
      simp only [List.filter_cons, hk, Bool.false_eq_true, if_false, Bool.not_false, if_true,
        mergeWith]

/-- What is given under a key is what an equal key picks out. -/
theorem given_eq_of_beq {k key : κ} (h : (k == key) = true) (a : Assoc κ γ) :
    given key a = (a.filter fun e => k == e.1).map Prod.snd := by
  simp only [given, fun k' : κ => (BEq.comm : (k' == key) = (key == k')),
    fun k' : κ => (BEq.congr_left h : (k == k') = (key == k'))]

/-- What is given under a key stays when the entries under another key are dropped. -/
theorem given_filter_of_not_beq {k key : κ} (h : (k == key) = false) (a : Assoc κ γ) :
    given key (a.filter fun e => !(k == e.1)) = given key a := by
  rw [given, List.filter_filter, given]
  congr 1
  refine List.filter_congr fun e _ => ?_
  cases he : e.1 == key with
  | false => rfl
  | true => rw [Bool.true_and, BEq.congr_right he, h, Bool.not_false]

/-- A merge shows no change under a function if each key that comes in was there and shows none
after all that came in under it. In between it may have been something else. -/
theorem mapValues_mergeWith_eq_self (φ : β → δ) {f : Option β → γ → β} {a : Assoc κ γ}
    {m : Assoc κ β} (h : ∀ e ∈ a, ∃ x, get? e.1 m = some x ∧
      ∀ y, combine f (some x) (given e.1 a) = some y → φ y = φ x) :
    mapValues φ (mergeWith f m a) = mapValues φ m := by
  induction m generalizing a with
  | nil =>
    cases a with
    | nil => rfl
    | cons e a =>
      obtain ⟨x, hx, -⟩ := h e List.mem_cons_self
      cases hx
  | cons e m ih =>
    obtain ⟨k, v⟩ := e
    -- the first entry takes in what comes under its key, and the others do so with the rest
    have hhead : φ (((a.filter fun e => k == e.1).map Prod.snd).foldl
        (fun x c => f (some x) c) v) = φ v := by
      by_cases hnone : a.filter (fun e => k == e.1) = []
      · rw [hnone]
        rfl
      · obtain ⟨e, he⟩ := List.exists_mem_of_ne_nil _ hnone
        obtain ⟨hmem, hk⟩ := List.mem_filter.1 he
        obtain ⟨x, hx, hfix⟩ := h e hmem
        rw [get?, if_pos hk] at hx
        cases hx
        rw [given_eq_of_beq hk, combine_some] at hfix
        exact hfix _ rfl
    have htail : mapValues φ (mergeWith f m (a.filter fun e => !(k == e.1))) = mapValues φ m := by
      refine ih fun e he => ?_
      obtain ⟨hmem, hk⟩ := List.mem_filter.1 he
      rw [Bool.not_eq_true'] at hk
      obtain ⟨x, hx, hfix⟩ := h e hmem
      rw [get?, hk, if_neg Bool.false_ne_true] at hx
      refine ⟨x, hx, ?_⟩
      rw [given_filter_of_not_beq hk]
      exact hfix
    rw [mergeWith_cons]
    change (k, φ _) :: mapValues φ _ = (k, φ v) :: mapValues φ m
    rw [hhead, htail]

/-- Values that can be combined a second time with what came of them the first time, and then show
no change under a function. -/
structure Repeats (ok : Option β → γ → Prop) (f : Option β → γ → β) (φ : β → δ) (cs : List γ) :
    Prop where
  accepts : ∀ {x y}, Accepts ok f x cs → combine f x cs = some y → Accepts ok f (some y) cs
  settled : ∀ {x y z}, Accepts ok f x cs → combine f x cs = some y →
    combine f (some y) cs = some z → φ z = φ y

omit [BEq κ] [EquivBEq κ] in
/-- A function on the values that come in may be left to the combination. -/
theorem repeats_map {α : Type} {ok : Option β → γ → Prop} {f : Option β → γ → β} {φ : β → δ}
    {g : α → γ} {cs : List α}
    (h : Repeats (fun x c => ok x (g c)) (fun x c => f x (g c)) φ cs) :
    Repeats ok f φ (cs.map g) where
  accepts hx hy := by
    rw [accepts_map] at hx ⊢
    rw [combine_map] at hy
    exact h.accepts hx hy
  settled hx hy hz := by
    rw [accepts_map] at hx
    rw [combine_map] at hy hz
    exact h.settled hx hy hz

omit [BEq κ] [EquivBEq κ] in
/-- Values that replace each other can come in a second time: the last one stays. -/
theorem repeats_last (φ : β → δ) (cs : List β) :
    Repeats (fun _ _ => True) (fun _ c => c) φ cs where
  accepts _ _ := accepts_true _ _ cs
  settled _ hy hz := by
    rw [combine_last] at hy hz
    cases hlast : cs.getLast? with
    | none =>
      rw [hlast, Option.none_or, Option.some.injEq] at hz
      rw [hz]
    | some last =>
      rw [hlast, Option.some_or, Option.some.injEq] at hy hz
      rw [← hy, ← hz]

omit [BEq κ] [EquivBEq κ] in
/-- Values that do not replace each other can come in a second time: the first one stays. -/
theorem repeats_first (φ : β → δ) (cs : List β) :
    Repeats (fun _ _ => True) (fun x c => x.getD c) φ cs where
  accepts _ _ := accepts_true _ _ cs
  settled _ _ hz := by
    rw [combine_first, Option.some_or, Option.some.injEq] at hz
    rw [hz]

/-- A merge can be made a second time, and then shows no change, if that is so key by key. -/
theorem mergeWith_repeats {ok : Option β → γ → Prop} {f : Option β → γ → β} {φ : β → δ}
    {m : Assoc κ β} {a : Assoc κ γ}
    (hrepeats : ∀ e ∈ a, Repeats ok f φ (given e.1 a)) (h : Admits ok f m a) :
    Admits ok f (mergeWith f m a) a ∧
      mapValues φ (mergeWith f (mergeWith f m a) a) = mapValues φ (mergeWith f m a) := by
  rw [admits_iff] at h ⊢
  have hsome : ∀ e ∈ a, ∃ y, combine f (get? e.1 m) (given e.1 a) = some y := by
    intro e he
    exact exists_combine_eq_some f _ (List.ne_nil_of_mem (mem_given.2 ⟨e.1, he, BEq.rfl⟩))
  refine ⟨fun e he => ?_, mapValues_mergeWith_eq_self φ fun e he => ?_⟩
  · obtain ⟨y, hy⟩ := hsome e he
    rw [get?_mergeWith, hy]
    exact (hrepeats e he).accepts (h e he) hy
  · obtain ⟨y, hy⟩ := hsome e he
    refine ⟨y, (get?_mergeWith f e.1 m a).trans hy, fun z hz => ?_⟩
    exact (hrepeats e he).settled (h e he) hy hz

/-- Updating a map with values that it has last taken in changes nothing. -/
theorem update_update_self (m a : Assoc κ β) : update (update m a) a = update m a := by
  have hsame := (mergeWith_repeats (φ := fun v : β => v) (m := m)
    (fun e _ => repeats_last _ (given e.1 a)) (admits_true _ m a)).2
  rw [mapValues_eq_self fun _ _ => rfl, mapValues_eq_self fun _ _ => rfl] at hsame
  rw [update_eq_mergeWith, update_eq_mergeWith]
  exact hsame

/-! ## Keys after a merge -/

omit [EquivBEq κ] in
/-- The keys after a merge of entries under exact keys: those before, and those that came in and
were not there, each once. -/
theorem keys_mergeWith (f : Option β → γ → β) {a : Assoc κ γ} (ha : ∀ e ∈ a, IsExact e.1)
    (m : Assoc κ β) : ∃ new : List κ, (mergeWith f m a).map Prod.fst = m.map Prod.fst ++ new ∧
      new.Nodup ∧ ∀ k, k ∈ new ↔ k ∈ a.map Prod.fst ∧ k ∉ m.map Prod.fst := by
  induction a generalizing m with
  | nil => exact ⟨[], (List.append_nil _).symm, List.nodup_nil, by simp⟩
  | cons e a ih =>
    obtain ⟨k, c⟩ := e
    obtain ⟨hk, hrest⟩ := List.forall_mem_cons.1 ha
    obtain ⟨new, hkeys, hnodup, hmem⟩ := ih hrest (alter k (fun x => f x c) m)
    rw [mergeWith, hkeys]
    have halter : (alter k (fun x => f x c) m).map Prod.fst =
        m.map Prod.fst ++ if (get? k m).isSome then [] else [k] :=
      map_fst_insert k (f (get? k m) c) m
    by_cases hthere : (get? k m).isSome = true
    · -- no key is new
      rw [if_pos hthere, List.append_nil] at halter
      rw [isSome_get?_iff hk] at hthere
      refine ⟨new, by rw [halter], hnodup, fun key => ?_⟩
      rw [hmem, halter, List.map_cons, List.mem_cons]
      refine and_congr_left fun habsent => ⟨.inr, fun h => h.resolve_left ?_⟩
      rintro rfl
      exact habsent hthere
    · -- the key is new, and those that come after it differ from it
      rw [if_neg hthere] at halter
      rw [isSome_get?_iff hk] at hthere
      refine ⟨k :: new, by rw [halter, List.append_assoc, List.singleton_append], ?_, fun key => ?_⟩
      · refine List.nodup_cons.2 ⟨fun hin => ?_, hnodup⟩
        rw [hmem, halter] at hin
        exact hin.2 (List.mem_append_right _ List.mem_cons_self)
      · rw [List.mem_cons, hmem, halter, List.map_cons, List.mem_cons, List.mem_append,
          List.mem_singleton, not_or]
        constructor
        · rintro (rfl | ⟨hin, hold, -⟩)
          · exact ⟨.inl rfl, hthere⟩
          · exact ⟨.inr hin, hold⟩
        · rintro ⟨rfl | hin, hold⟩
          · exact .inl rfl
          · by_cases hkey : key = k
            · exact .inl hkey
            · exact .inr ⟨hin, hold, hkey⟩

omit [EquivBEq κ] in
/-- The keys stay if all that come in are there. -/
theorem keys_mergeWith_of_mem (f : Option β → γ → β) {a : Assoc κ γ} (ha : ∀ e ∈ a, IsExact e.1)
    {m : Assoc κ β} (h : ∀ e ∈ a, e.1 ∈ m.map Prod.fst) :
    (mergeWith f m a).map Prod.fst = m.map Prod.fst := by
  obtain ⟨new, hkeys, -, hmem⟩ := keys_mergeWith f ha m
  have hnil : new = [] := by
    rw [List.eq_nil_iff_forall_not_mem]
    intro k hk
    obtain ⟨hin, hnot⟩ := (hmem k).1 hk
    obtain ⟨e, he, rfl⟩ := List.mem_map.1 hin
    exact hnot (h e he)
  rw [hkeys, hnil, List.append_nil]

end ApiDoc.Assoc
