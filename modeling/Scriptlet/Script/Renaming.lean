/-!
Names of variables in a script. The declarations of a name are numbered from one on, and a name
stands for its last declaration.
-/

namespace Scriptlet

/-- Two tables, in which the first entry of a name is the one that holds. -/
structure Renaming where
  /-- How often a name has been declared. -/
  counts : List (String × Nat)
  /-- The name that was given at the last declaration. -/
  current : List (String × String)
deriving DecidableEq, Repr

namespace Renaming

def empty : Renaming := ⟨[], []⟩

/-- How often a name has been declared. -/
def count (r : Renaming) (name : String) : Nat := (r.counts.lookup name).getD 0

/-- The last declaration of a name; one that was never declared stands for itself. -/
def resolve (r : Renaming) (name : String) : String := (r.current.lookup name).getD name

/-- Declares a name once more, and gives the one that stands for it from then on. -/
def declare (r : Renaming) (name : String) : String × Renaming :=
  let n := r.count name + 1
  let unique := name ++ "_" ++ toString n
  (unique, ⟨(name, n) :: r.counts, (name, unique) :: r.current⟩)

@[simp] theorem count_declare_self (r : Renaming) (name : String) :
    (r.declare name).2.count name = r.count name + 1 := by
  simp [declare, count]

theorem count_declare_of_ne (r : Renaming) {name other : String} (h : other ≠ name) :
    (r.declare other).2.count name = r.count name := by
  simp [declare, count, List.lookup_cons, beq_false_of_ne h.symm]

/-- A name that has just been declared stands for what was given. -/
theorem resolve_declare_self (r : Renaming) (name : String) :
    (r.declare name).2.resolve name = (r.declare name).1 := by
  simp [declare, resolve]

theorem resolve_declare_of_ne (r : Renaming) {name other : String} (h : other ≠ name) :
    (r.declare other).2.resolve name = r.resolve name := by
  simp [declare, resolve, List.lookup_cons, beq_false_of_ne h.symm]

end Renaming

end Scriptlet
