import Scriptlet.SyntaxTree.Basic

/-!
Shapes of syntax trees: what is left of a tree when its spans and the texts of its interior nodes
are forgotten.
-/

namespace Scriptlet

/-- Rules whose nodes stand for one token and keep its value. -/
def Rule.isLeaf : Rule → Bool
  | .type | .id | .op | .num | .str | .true | .false => .true
  | _ => .false

inductive Shape where
  | leaf (rule : Rule) (text : String)
  | branch (rule : Rule) (children : List Shape)
deriving Repr

namespace Shape

def rule : Shape → Rule
  | leaf rule _ => rule
  | branch rule _ => rule

mutual

def decEq : (s t : Shape) → Decidable (s = t)
  | leaf rule text, leaf rule' text' =>
    decidable_of_iff (rule = rule' ∧ text = text') (by rw [leaf.injEq])
  | branch rule ss, branch rule' ss' =>
    have := decEqAll ss ss'
    decidable_of_iff (rule = rule' ∧ ss = ss') (by rw [branch.injEq])
  | leaf .., branch .. => isFalse Shape.noConfusion
  | branch .., leaf .. => isFalse Shape.noConfusion

def decEqAll : (ss ts : List Shape) → Decidable (ss = ts)
  | [], [] => isTrue rfl
  | s :: ss, t :: ts =>
    have := decEq s t
    have := decEqAll ss ts
    decidable_of_iff (s = t ∧ ss = ts) (by rw [List.cons.injEq])
  | [], _ :: _ => isFalse (List.cons_ne_nil _ _).symm
  | _ :: _, [] => isFalse (List.cons_ne_nil _ _)

end

instance : DecidableEq Shape := decEq

end Shape

namespace Node

mutual

def shape : Node → Shape
  | ⟨rule, text, _, children⟩ =>
    if rule.isLeaf then .leaf rule text else .branch rule (shapes children)

def shapes : List Node → List Shape
  | [] => []
  | n :: ns => n.shape :: shapes ns

end

@[simp] theorem shapes_nil : shapes [] = [] := rfl

@[simp] theorem shapes_cons (n : Node) (ns : List Node) : shapes (n :: ns) = n.shape :: shapes ns :=
  rfl

@[simp] theorem shapes_append (ns ms : List Node) : shapes (ns ++ ms) = shapes ns ++ shapes ms := by
  induction ns with
  | nil => rfl
  | cons n ns ih => simp [ih]

@[simp] theorem shape_rule (n : Node) : n.shape.rule = n.rule := by
  obtain ⟨rule, text, span, children⟩ := n
  simp only [shape]
  split <;> rfl

theorem shape_of_isLeaf {rule : Rule} (h : rule.isLeaf = true) (text : String) (span : Span)
    (children : List Node) : shape ⟨rule, text, span, children⟩ = .leaf rule text := by
  rw [shape, if_pos h]

theorem shape_of_not_isLeaf {rule : Rule} (h : rule.isLeaf = false) (text : String) (span : Span)
    (children : List Node) :
    shape ⟨rule, text, span, children⟩ = .branch rule (shapes children) := by
  rw [shape, if_neg (by simp [h])]

/-- The shapes of a list of nodes, as a map over it. -/
theorem shapes_eq_map (ns : List Node) : shapes ns = ns.map shape := by
  induction ns with
  | nil => rfl
  | cons n ns ih => rw [shapes_cons, ih, List.map_cons]

/-- A node with the shape of a leaf has its rule and its text. -/
theorem exists_of_shape_eq_leaf {n : Node} {rule : Rule} {text : String}
    (h : n.shape = .leaf rule text) : ∃ span children, n = ⟨rule, text, span, children⟩ := by
  obtain ⟨rule', text', span, children⟩ := n
  rw [shape] at h
  split at h
  · cases h
    exact ⟨span, children, rfl⟩
  · cases h

/-- A node with the shape of a branch has its rule and children of the shapes below. Its text is
free. -/
theorem exists_of_shape_eq_branch {n : Node} {rule : Rule} {ss : List Shape}
    (h : n.shape = .branch rule ss) :
    ∃ text span children, n = ⟨rule, text, span, children⟩ ∧ children.map shape = ss := by
  obtain ⟨rule', text, span, children⟩ := n
  rw [shape] at h
  split at h
  · cases h
  · cases h
    exact ⟨text, span, children, rfl, (shapes_eq_map children).symm⟩

end Node

end Scriptlet
