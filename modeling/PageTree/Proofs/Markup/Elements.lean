import Mathlib.Data.List.Forall2
import PageTree.Markup.Rule
import PageTree.Proofs.Merge

/-! # Elements of matching forests

Which nodes of a forest are written as elements, one node at a time (**`Markup.elements_cons`**),
and what matching forests have in common: the same faults (**`Forest.Matches.fault?_eq`**), and
elements that are the same but for their styles (**`Forest.Matches.forall₂_elements`**). -/

namespace PageTree

open Markup

/-! ## Node by node -/

/-- The fault of a node is its own or, in a container with a tag, the first of its children. -/
theorem Node.fault?_eq (node : Node) :
    node.fault? =
      match node.kind with
      | .text => if node.children.isEmpty then none else some (.textWithChildren node.key)
      | .single => if Text.isBlankText node.tag then some (.missingTag node.key) else none
      | .container =>
        if Text.isBlankText node.tag then some (.missingTag node.key)
        else Forest.fault? node.children := by
  cases node; rfl

/-- Matching forests have the same first fault. -/
theorem Forest.Matches.fault?_eq {forest others : Forest} (h : Forest.Matches forest others) :
    Forest.fault? forest = Forest.fault? others := by
  induction h with
  | nil => rfl
  | cons head hchildren _ ihc ihf =>
    rw [Forest.fault?, Forest.fault?, Node.fault?_eq, Node.fault?_eq, head.kind, head.key, head.tag,
      hchildren.isEmpty_eq, ihc, ihf]

namespace Markup

/-- A node is an element unless it is a text, and the elements below a container come after it. -/
theorem elements_cons (node : Node) (forest : Forest) :
    elements (node :: forest) =
      (if node.kind = .text then [] else [node]) ++
        ((if node.kind = .container then elements node.children else []) ++ elements forest) := by
  rw [elements, Forest.visited, Node.visited_eq, List.cons_append, List.filter_cons,
    List.filter_append, elements, elements]
  cases hkind : node.kind <;> simp

/-- Something holds of all elements when it holds of the first node, if that is one, of those below
it, if it is a container, and of those of the other nodes. -/
theorem forall_mem_elements_cons {p : Node → Prop} {node : Node} {forest : Forest} :
    (∀ other ∈ elements (node :: forest), p other) ↔
      (node.kind ≠ .text → p node) ∧
        (node.kind = .container → ∀ other ∈ elements node.children, p other) ∧
        ∀ other ∈ elements forest, p other := by
  rw [elements_cons]
  cases node.kind <;> simp [or_imp, forall_and]

end Markup

/-! ## Matching elements -/

namespace Node

variable {node other : Node}

/-- Nodes that match have properties that differ at most in style and position. -/
theorem MatchesHead.props_eq (h : node.MatchesHead other) :
    node.props.bind Props.className = other.props.bind Props.className ∧
      (node.props.getD {}).id = (other.props.getD {}).id ∧
      (node.props.getD {}).attributes = (other.props.getD {}).attributes := by
  rcases h.props with heq | hagrees
  · rw [heq]
    exact ⟨rfl, rfl, rfl⟩
  · cases hnode : node.props with
    | none =>
      cases hother : other.props with
      | none => exact ⟨rfl, rfl, rfl⟩
      | some q =>
        rw [hnode, hother] at hagrees
        contradiction
    | some p =>
      cases hother : other.props with
      | none =>
        rw [hnode, hother] at hagrees
        contradiction
      | some q =>
        rw [hnode, hother, agreesOption, Props.agrees] at hagrees
        simp only [Bool.and_eq_true, beq_iff_eq] at hagrees
        obtain ⟨⟨⟨⟨hid, hclass⟩, -⟩, hattributes⟩, -⟩ := hagrees
        exact ⟨hclass, hid, hattributes⟩

/-- Nodes with the same fields have the same explicit class. -/
theorem MatchesHead.explicitClass?_eq (h : node.MatchesHead other) :
    explicitClass? node = explicitClass? other := by
  rw [explicitClass?, explicitClass?, h.props_eq.1]

end Node

namespace Forest

variable {forest others : Forest}

/-- The elements of matching forests are the same but for their styles. -/
theorem Matches.forall₂_elements (h : Matches forest others) :
    List.Forall₂ Node.MatchesHead (elements forest) (elements others) := by
  induction h with
  | nil => exact .nil
  | @cons node other forest others head _ _ ihc ihf =>
    rw [elements_cons, elements_cons, head.kind]
    refine List.rel_append ?_ (List.rel_append ?_ ihf)
    · split
      · exact .nil
      · exact .cons head .nil
    · split
      · exact ihc
      · exact .nil

end Forest

end PageTree
