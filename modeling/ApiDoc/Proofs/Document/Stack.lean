import ApiDoc.Proofs.Document.Scan
import Mathlib.Logic.Function.Iterate

/-!
# The search for keys, turn by turn

The search as a loop over a stack of nodes, each with the keys that lead to it. A turn takes the
node on top of the stack, and puts the values inside it there instead, the last of them first. After
`n` turns the loop has visited the first `n` nodes of the walk through the document, and has found
what is to be reported of them (`pending_iterate_turn`). So it ends after one turn for each node,
with what the search finds and what the walk, node by node, reports (`seek_eq_walk`).
-/

namespace ApiDoc.Document

open Value

variable {wrong : List Value} {allowFlags : Bool}

/-- A search that is going on: the nodes that are still to be visited, each behind its place and the
next one last, and the keys that have been found. -/
@[ext]
structure Search where
  stack : List (List Atom × Value)
  found : List Atom

namespace Search

/-- The search before its first turn. -/
def start (source : Value) : Search := ⟨[([], source)], []⟩

/-- What the search finds when it visits a node: its key, if that is to be reported. -/
def finds (wrong : List Value) (allowFlags : Bool) (e : List Atom × Value) : List Atom :=
  if isReported wrong allowFlags e.1 e.2 then e.1.getLast?.toList else []

/-- A turn of the search, which does nothing if no node is to be visited. -/
def turn (wrong : List Value) (allowFlags : Bool) (s : Search) : Search :=
  match s.stack.getLast? with
  | none => s
  | some (place, node) =>
    { stack := s.stack.dropLast ++ (node.keyed.map fun e => (place ++ [e.1], e.2)).reverse
      found := s.found ++ finds wrong allowFlags (place, node) }

/-- The nodes that a search will visit, in order: each node on the stack and the nodes inside it. -/
def pending (s : Search) : List (List Atom × Value) :=
  s.stack.reverse.flatMap fun e => e :: placesBelow e.1 e.2

/-- Nothing is to be visited just if nothing is on the stack. -/
theorem pending_eq_nil_iff {s : Search} : s.pending = [] ↔ s.stack = [] := by
  rw [pending, List.flatMap_eq_nil_iff]
  constructor
  · intro h
    refine List.eq_nil_iff_forall_not_mem.2 fun e he => ?_
    exact absurd (h e (List.mem_reverse.2 he)) (List.cons_ne_nil _ _)
  · intro h e he
    rw [h] at he
    exact absurd he List.not_mem_nil

/-- A search that is at its end does nothing. -/
theorem turn_of_stack_eq_nil {s : Search} (h : s.stack = []) : s.turn wrong allowFlags = s := by
  rw [turn, h, List.getLast?_nil]

/-- A turn visits the first of the nodes that are to be visited. -/
theorem pending_turn (wrong : List Value) (allowFlags : Bool) {s : Search} (h : s.stack ≠ []) :
    ∃ e, s.pending = e :: (s.turn wrong allowFlags).pending ∧
      (s.turn wrong allowFlags).found = s.found ++ finds wrong allowFlags e := by
  obtain ⟨below, ⟨place, node⟩, hstack⟩ := (List.eq_nil_or_concat s.stack).resolve_left h
  rw [List.concat_eq_append] at hstack
  refine ⟨(place, node), ?_, ?_⟩
  · -- the values inside the node lie on the stack in reverse, so the first of them comes next
    rw [turn, hstack, List.getLast?_concat, pending, pending, hstack]
    simp only [List.dropLast_concat, List.reverse_append, List.reverse_reverse, List.flatMap_append,
      List.flatMap_map, List.reverse_singleton, List.flatMap_cons, List.cons_append,
      List.nil_append]
    rw [← placesBelow_eq]
  · rw [turn, hstack, List.getLast?_concat]

/-- After some turns that many nodes have been visited, the others are still to be visited, and what
has been found is what there is to find at the visited ones. -/
theorem pending_iterate_turn (wrong : List Value) (allowFlags : Bool) (s : Search) (n : Nat) :
    ((turn wrong allowFlags)^[n] s).pending = s.pending.drop n ∧
      ((turn wrong allowFlags)^[n] s).found =
        s.found ++ (s.pending.take n).flatMap (finds wrong allowFlags) := by
  induction n generalizing s with
  | zero => simp
  | succ n ih =>
    rw [Function.iterate_succ_apply, (ih _).1, (ih _).2]
    by_cases h : s.stack = []
    · -- there is nothing more to visit, and a turn changes nothing
      rw [turn_of_stack_eq_nil h, pending_eq_nil_iff.2 h]
      simp
    · obtain ⟨e, hpending, hfound⟩ := pending_turn wrong allowFlags h
      rw [hpending, hfound, List.drop_succ_cons, List.take_succ_cons, List.flatMap_cons,
        List.append_assoc]
      exact ⟨rfl, rfl⟩

/-- The search finds the last keys of the places that are to be reported. -/
theorem flatMap_finds (nodes : List (List Atom × Value)) :
    nodes.flatMap (finds wrong allowFlags) =
      (nodes.filter fun e => isReported wrong allowFlags e.1 e.2).filterMap (·.1.getLast?) := by
  induction nodes with
  | nil => rfl
  | cons e nodes ih =>
    rw [List.flatMap_cons, ih, finds, List.filter_cons]
    split
    · rw [List.filterMap_cons]
      cases e.1.getLast? <;> rfl
    · rfl

/-- At its start a search will visit the source and all places below it. -/
theorem pending_start (source : Value) :
    (start source).pending = ([], source) :: placesBelow [] source := by
  rw [pending, start, List.reverse_singleton, List.flatMap_singleton]

end Search

/-- Truth values apart, less is reported. -/
theorem isReported_true (place : List Atom) (node : Value) :
    isReported wrong true place node = (!isFlag node && isReported wrong false place node) := by
  simp only [isReported, Bool.true_and, Bool.false_and, Bool.not_false, Bool.and_true]
  exact Bool.and_comm _ _

/-- The search is a loop over a stack that ends after one turn for the document and one for each
node inside it. It finds what a walk by recursion finds, which comes to a node before the nodes
inside it and to these before the nodes to the right of it: the last key of each place that is to be
reported, in order. With truth values left out, it finds the keys among these whose nodes are no
truth values. -/
theorem seek_eq_walk (wrong : List Value) (source : Value) :
    (∀ allowFlags,
      (∀ n, ((Search.turn wrong allowFlags)^[n] (.start source)).stack = [] ↔
        (placesBelow [] source).length < n) ∧
      (Search.turn wrong allowFlags)^[(placesBelow [] source).length + 1] (.start source) =
        ⟨[], seek wrong allowFlags source⟩ ∧
      seek wrong allowFlags source =
        ((placesBelow [] source).filter fun e => isReported wrong allowFlags e.1 e.2).filterMap
          (·.1.getLast?)) ∧
    seek wrong true source =
      (((placesBelow [] source).filter fun e => isReported wrong false e.1 e.2).filter
        fun e => !isFlag e.2).filterMap (·.1.getLast?) := by
  have hwalk : ∀ allowFlags, seek wrong allowFlags source =
      ((placesBelow [] source).filter fun e => isReported wrong allowFlags e.1 e.2).filterMap
        (·.1.getLast?) := by
    intro allowFlags
    rw [seek_eq, reportedPlaces, List.filterMap_map]
    rfl
  have hstack : ∀ allowFlags n, ((Search.turn wrong allowFlags)^[n] (.start source)).stack = [] ↔
      (placesBelow [] source).length < n := by
    intro allowFlags n
    rw [← Search.pending_eq_nil_iff, (Search.pending_iterate_turn wrong allowFlags _ n).1,
      Search.pending_start, List.drop_eq_nil_iff, List.length_cons]
    exact Iff.rfl
  refine ⟨fun allowFlags => ⟨hstack allowFlags, ?_, hwalk allowFlags⟩, ?_⟩
  · have hfound := (Search.pending_iterate_turn wrong allowFlags (.start source)
      ((placesBelow [] source).length + 1)).2
    rw [Search.pending_start, ← List.length_cons, List.take_length, List.flatMap_cons,
      Search.flatMap_finds, ← hwalk] at hfound
    have hempty := (hstack allowFlags _).2 (Nat.lt_succ_self (placesBelow [] source).length)
    exact Search.ext hempty hfound
  · rw [hwalk, List.filter_filter]
    simp only [isReported_true]

end ApiDoc.Document
