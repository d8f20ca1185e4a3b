import Dialectical.Proofs.LinkTypes

/-!
# The graph of a framework

A framework does not store its graph; parents, children and links are read off the conditions. Here
they are computed once and kept in two tables, as one does that asks for them often: the leaves of a
condition are collected by a walk that adds what it has not found yet (`Formula.collect`), and the
children of all arguments are found by going through the parents of each and entering the child with
them (`Graph.invert`).

* The walk finds the leaves in order of first occurrence, since adding what is not there yet is how
  repetitions are left out (`Formula.collect_eraseDups`).
* The table of the children lists, for each argument, the children that the conditions give it
  (`Graph.getElem?_invert`). That no list of parents has a repetition is what it rests on: a parent
  that were listed twice would be entered twice.

So the tables are what the conditions say, and the views of the graph agree with each other and with
the conditions (`Framework.graph_consistent`).
-/

namespace Dialectical

/-! ### Leaves -/

namespace Formula

variable {α : Type} [BEq α] [LawfulBEq α]

/-- Adds the leaves of a formula, from left to right, to those that were found before it, each only
if it is not there yet. -/
def collect : Formula α → List α → List α
  | top, found => found
  | bot, found => found
  | leaf a, found => if found.contains a then found else found ++ [a]
  | neg φ, found => φ.collect found
  | binary _ φ ψ, found => ψ.collect (φ.collect found)

/-- What was found before and the leaves of the formula, without repetitions. -/
theorem collect_eraseDups (φ : Formula α) (as : List α) :
    φ.collect as.eraseDups = (as ++ φ.occurrences).eraseDups := by
  classical
  induction φ generalizing as with
  | top | bot => rw [collect, occurrences, List.append_nil]
  | leaf a => simp only [collect, occurrences, eraseDups_concat, List.contains_eq_mem,
      List.mem_eraseDups, decide_eq_true_eq]
  | neg φ ih => exact ih as
  | binary op φ ψ ihφ ihψ => rw [collect, ihφ, ihψ, occurrences, List.append_assoc]

/-- Begun with nothing, collecting gives the leaves. -/
theorem collect_nil (φ : Formula α) : φ.collect [] = φ.leaves := φ.collect_eraseDups []

end Formula

/-! ### Tables -/

/-- The parents and the children of all arguments, in order of identifiers. -/
structure Graph where
  parents : List (List Nat)
  children : List (List Nat)

namespace Graph

/-- Adds a child to the children of each of its parents. -/
def enter (table : List (List Nat)) (rs : List Nat) (child : Nat) : List (List Nat) :=
  rs.foldl (fun table r ↦ table.modify r (· ++ [child])) table

/-- The children of each of `n` arguments, from the parents of each. -/
def invert (n : Nat) (parents : List (List Nat)) : List (List Nat) :=
  parents.zipIdx.foldl (fun table p ↦ enter table p.1 p.2) (List.replicate n [])

/-- The graph with these parents. -/
def ofParents (n : Nat) (parents : List (List Nat)) : Graph := ⟨parents, invert n parents⟩

/-- The links, by increasing child and then in the order of the parents. -/
def links (G : Graph) : List Link :=
  G.parents.zipIdx.flatMap fun p ↦ p.1.map (⟨·, p.2⟩)

/-- The number of links. -/
def countLinks (G : Graph) : Nat := (G.parents.map List.length).sum

/-- **Entering a row.** The child is added to its parents, and to no other argument. -/
theorem getElem?_enter {rs : List Nat} (hrs : rs.Nodup) (table : List (List Nat)) (child r : Nat) :
    (enter table rs child)[r]? =
      table[r]?.map fun cs ↦ if r ∈ rs then cs ++ [child] else cs := by
  induction rs generalizing table with
  | nil => simp [enter]
  | cons r' rs ih =>
    obtain ⟨hr', hrs⟩ := List.nodup_cons.1 hrs
    show (enter (table.modify r' (· ++ [child])) rs child)[r]? = _
    rw [ih hrs, List.getElem?_modify]
    by_cases h : r' = r
    · -- the other parents are different ones, so the child is entered once
      subst h
      simp [hr', Function.comp_def]
    · simp [h, Ne.symm h]

/-- The last row of the parents is entered last. -/
theorem invert_concat (n : Nat) (parents : List (List Nat)) (rs : List Nat) :
    invert n (parents ++ [rs]) = enter (invert n parents) rs parents.length := by
  simp [invert, List.zipIdx_append]

/-- **The children of an argument are those that have it as a parent**, in increasing order. -/
theorem getElem?_invert {n r : Nat} {parents : List (List Nat)} (h : ∀ rs ∈ parents, rs.Nodup)
    (hr : r < n) : (invert n parents)[r]? =
      some ((List.range parents.length).filter fun c ↦ r ∈ parents[c]?.getD []) := by
  induction parents using List.reverseRecOn with
  | nil => simp [invert, hr]
  | append_singleton parents rs ih =>
    have hkept : (List.range parents.length).filter (fun c ↦ r ∈ (parents ++ [rs])[c]?.getD []) =
        (List.range parents.length).filter fun c ↦ r ∈ parents[c]?.getD [] := by
      refine List.filter_congr fun c hc ↦ ?_
      rw [List.getElem?_append_left (List.mem_range.1 hc)]
    have hlast : (parents ++ [rs])[parents.length]?.getD [] = rs := by simp
    rw [invert_concat, getElem?_enter (h rs (by simp)), ih fun rs hrs ↦ h rs (by simp [hrs]),
      Option.map_some, List.length_append, List.length_singleton, List.range_succ,
      List.filter_append, hkept, List.filter_singleton, hlast]
    by_cases hrs : r ∈ rs <;> simp [hrs]

end Graph

/-! ### The graph of a framework -/

namespace Framework

/-- The graph of a framework, in tables. -/
def graph (F : Framework) : Graph :=
  .ofParents F.size (F.conditions.map fun c ↦ c.collect [])

/-- The table of the parents is that of the framework. -/
theorem parents_graph (F : Framework) : F.graph.parents = F.arguments.map F.parents := by
  refine List.ext_getElem (by simp [graph, Graph.ofParents, arguments, size, F.length_conditions])
    fun a ha _ ↦ ?_
  have hcond : a < F.conditions.length := by simpa [graph, Graph.ofParents] using ha
  simp [graph, Graph.ofParents, arguments, parents, condition, Formula.collect_nil, hcond]

theorem getElem?_parents_graph (F : Framework) {s : Nat} (hs : s < F.size) :
    F.graph.parents[s]? = some (F.parents s) := by
  simp [parents_graph, arguments, hs]

/-- **The table of the children** is computed from that of the parents, and holds the children of
the framework. -/
theorem getElem?_children_graph (F : Framework) {r : Nat} (hr : r < F.size) :
    F.graph.children[r]? = some (F.children r) := by
  have hnodup : ∀ rs ∈ F.graph.parents, rs.Nodup := by
    rw [parents_graph]
    exact List.forall_mem_map.2 fun s _ ↦ F.nodup_parents s
  have hlength : F.graph.parents.length = F.size := by simp [parents_graph, arguments]
  refine (Graph.getElem?_invert hnodup hr).trans (congrArg some ?_)
  rw [hlength]
  refine List.filter_congr fun s hs ↦ ?_
  rw [F.getElem?_parents_graph (List.mem_range.1 hs), Option.getD_some]

/-- Both list the links in the same order. -/
theorem links_graph (F : Framework) : F.graph.links = F.links := by
  have hzip : (F.arguments.map F.parents).zipIdx = F.arguments.map fun s ↦ (F.parents s, s) := by
    refine List.ext_getElem (by simp) fun s hs _ ↦ ?_
    simp [arguments]
  rw [Graph.links, parents_graph, hzip, List.flatMap_map]
  rfl

/-- Counted by parents, the links are as many as there are in the list. -/
theorem countLinks_graph (F : Framework) : F.graph.countLinks = F.links.length := by
  rw [Graph.countLinks, parents_graph, links, List.length_flatMap, List.map_map]
  simp [Function.comp_def]

/-! ### Orders -/

/-- Parents stand in the order of their first occurrences. -/
theorem pairwise_parents (F : Framework) (s : Nat) : (F.parents s).Pairwise fun r r' ↦
    (F.condition s).occurrences.idxOf r < (F.condition s).occurrences.idxOf r' :=
  pairwise_idxOf_eraseDups _

/-- Children are increasing. -/
theorem pairwise_children (F : Framework) (r : Nat) : (F.children r).Pairwise (· < ·) :=
  List.pairwise_lt_range.filter _

/-- A link comes before those with a larger child, and before those with the same child and a later
parent. -/
def Precedes (F : Framework) (l l' : Link) : Prop :=
  l.child < l'.child ∨
    l.child = l'.child ∧
      (F.parents l.child).idxOf l.parent < (F.parents l.child).idxOf l'.parent

/-- **Links are in order**: inside the block of a child by its parents, and the blocks by the child.
-/
theorem pairwise_links (F : Framework) : F.links.Pairwise F.Precedes := by
  refine List.pairwise_flatMap.2 ⟨fun s _ ↦ ?_, List.pairwise_lt_range.imp fun {s t} hlt ↦ ?_⟩
  · refine List.pairwise_map.2 ((pairwise_idxOf_of_nodup (F.nodup_parents s)).imp ?_)
    exact fun hlt ↦ .inr ⟨rfl, hlt⟩
  · intro l hl l' hl'
    obtain ⟨r, -, rfl⟩ := List.mem_map.1 hl
    obtain ⟨r', -, rfl⟩ := List.mem_map.1 hl'
    exact .inl hlt

/-- **The views of the graph are consistent**, however the framework came about: by building it or
by any number of reducts.

* `r` is a parent of `s` if and only if `s` is a child of `r`, if and only if `r` occurs in the
  condition of `s`, and if and only if `(r, s)` is a link.
* No list has a repetition. Parents are in order of first occurrence in the condition, children are
  increasing, and links are ordered by child and then as the parents of the child are.
* The tables that are computed once hold these parents and children, give these links, and their
  number.
-/
theorem graph_consistent (F : Framework) :
    (∀ r s, (r ∈ F.parents s ↔ s ∈ F.children r) ∧
      (s ∈ F.children r ↔ r ∈ (F.condition s).occurrences) ∧
      (r ∈ (F.condition s).occurrences ↔ ⟨r, s⟩ ∈ F.links)) ∧
    (∀ s, (F.parents s).Nodup ∧ (F.parents s).Pairwise fun r r' ↦
      (F.condition s).occurrences.idxOf r < (F.condition s).occurrences.idxOf r') ∧
    (∀ r, (F.children r).Nodup ∧ (F.children r).Pairwise (· < ·)) ∧
    F.links.Nodup ∧ F.links.Pairwise F.Precedes ∧
    (∀ a < F.size, F.graph.parents[a]? = some (F.parents a) ∧
      F.graph.children[a]? = some (F.children a)) ∧
    F.graph.links = F.links ∧ F.graph.countLinks = F.links.length := by
  refine ⟨fun r s ↦ ⟨?_, mem_children_iff, link_mem_links.symm⟩,
    fun s ↦ ⟨F.nodup_parents s, F.pairwise_parents s⟩,
    fun r ↦ ⟨(F.pairwise_children r).imp Nat.ne_of_lt, F.pairwise_children r⟩,
    F.nodup_links, F.pairwise_links,
    fun a ha ↦ ⟨F.getElem?_parents_graph ha, F.getElem?_children_graph ha⟩,
    F.links_graph, F.countLinks_graph⟩
  rw [mem_parents, mem_children_iff]

example : selfOpposition.graph = ⟨[[0], [0, 1]], [[0, 1], [1]]⟩ := rfl

end Framework

end Dialectical
