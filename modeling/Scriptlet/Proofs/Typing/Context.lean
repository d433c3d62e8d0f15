import Scriptlet.Proofs.Typing.Expr

/-!
The context that the checker keeps: what each of its steps does where it succeeds, and what a list
of typed statements leaves of it.
-/

namespace Scriptlet

open Outcome

theorem DeclaredOnce.cons_iff {v : Variable} {vs : List Variable} :
    DeclaredOnce (v :: vs) ↔ v.name ∉ vs.map Variable.name ∧ DeclaredOnce vs :=
  List.nodup_cons

theorem DeclaredOnce.right_of_append {us vs : List Variable} (h : DeclaredOnce (us ++ vs)) :
    DeclaredOnce vs := by
  rw [DeclaredOnce, List.map_append] at h
  exact (List.nodup_append.1 h).2.1

theorem Node.identifier_eq_ok_iff {n : Node} {name : String} :
    n.identifier = .ok name ↔ n.rule = .id ∧ name = n.text := by
  unfold identifier
  split <;> simp_all [eq_comm]

/-! ## Steps of the checker -/

namespace CheckM

variable {α : Type} {ctx ctx' : Context}

/-- What runs in a scope of its own starts with an empty one, and the scope is dropped after it. -/
theorem inScope_eq_ok {m : CheckM α} {a : α} :
    inScope m ctx = .ok a ctx' ↔
      ∃ c, m { ctx with scopes := .empty :: ctx.scopes } = .ok a c ∧
        ctx' = { c with scopes := c.scopes.tail } := by
  change andThen m _ { ctx with scopes := .empty :: ctx.scopes } = _ ↔ _
  unfold andThen
  cases m { ctx with scopes := .empty :: ctx.scopes } <;> simp [eq_comm]

/-- What runs in a function starts with its type to return, and the type is dropped after it. -/
theorem inFunction_eq_ok {m : CheckM α} {t : Ty} {a : α} :
    inFunction t m ctx = .ok a ctx' ↔
      ∃ c, m { ctx with returnTypes := t :: ctx.returnTypes } = .ok a c ∧
        ctx' = { c with returnTypes := c.returnTypes.tail } := by
  change andThen m _ { ctx with returnTypes := t :: ctx.returnTypes } = _ ↔ _
  unfold andThen
  cases m { ctx with returnTypes := t :: ctx.returnTypes } <;> simp [eq_comm]

theorem addFunction_bind_apply {f : Signature} {g : Unit → CheckM α} :
    (addFunction f >>= g) ctx = g () { ctx with functions := f :: ctx.functions } := rfl

end CheckM

theorem Scope.declare_eq_ok {s s' : Scope} {v : Variable} {position : Position} :
    s.declare v position = .ok s' ↔
      v.name ∉ s.bindings.map Variable.name ∧ s' = ⟨v :: s.bindings⟩ := by
  have hfind : s.find? v.name = none ↔ v.name ∉ s.bindings.map Variable.name := by
    simp [find?, List.find?_eq_none]
  rw [← hfind, declare]
  cases s.find? v.name <;> simp [eq_comm]

namespace CheckM

/-- A name can be declared once in the innermost scope, whatever the scopes around hold. -/
theorem declare_eq_ok {v : Variable} {position : Position} {s : Scope} {outer : List Scope}
    {fs : List Signature} {ts : List Ty} {ctx' : Context} {u : Unit} :
    declare v position ⟨s :: outer, fs, ts⟩ = .ok u ctx' ↔
      v.name ∉ s.bindings.map Variable.name ∧ ctx' = ⟨⟨v :: s.bindings⟩ :: outer, fs, ts⟩ := by
  unfold declare
  cases h : s.declare v position with
  | ok s' =>
    obtain ⟨hv, rfl⟩ := Scope.declare_eq_ok.1 h
    simp [h, hv, eq_comm]
  | error d =>
    simp only [h, reduceCtorEq, false_iff, not_and]
    intro hv
    rw [Scope.declare_eq_ok.2 ⟨hv, rfl⟩] at h
    cases h

/-- Variables can be declared together if none of them is there before or twice among them. -/
theorem declareAll_eq_ok {xs : List (Variable × Position)} {s : Scope} {outer : List Scope}
    {fs : List Signature} {ts : List Ty} {ctx' : Context} {u : Unit}
    (hs : DeclaredOnce s.bindings) :
    declareAll xs ⟨s :: outer, fs, ts⟩ = .ok u ctx' ↔
      DeclaredOnce ((xs.map Prod.fst).reverse ++ s.bindings) ∧
        ctx' = ⟨⟨(xs.map Prod.fst).reverse ++ s.bindings⟩ :: outer, fs, ts⟩ := by
  induction xs generalizing s with
  | nil =>
    rw [declareAll, pure_eq_ok]
    constructor
    · rintro ⟨-, rfl⟩
      exact ⟨hs, rfl⟩
    · rintro ⟨-, rfl⟩
      exact ⟨rfl, rfl⟩
  | cons x xs ih =>
    obtain ⟨v, position⟩ := x
    simp only [declareAll, bind_eq_ok, declare_eq_ok, List.map_cons, List.reverse_cons,
      List.append_assoc, List.singleton_append]
    constructor
    · rintro ⟨-, _, ⟨hv, rfl⟩, hrest⟩
      exact (ih (s := ⟨v :: s.bindings⟩) (DeclaredOnce.cons_iff.2 ⟨hv, hs⟩)).1 hrest
    · rintro ⟨hnodup, rfl⟩
      have hvs := hnodup.right_of_append
      exact ⟨(), _, ⟨(DeclaredOnce.cons_iff.1 hvs).1, rfl⟩,
        (ih (s := ⟨v :: s.bindings⟩) hvs).2 ⟨hnodup, rfl⟩⟩

end CheckM

/-! ## What statements leave behind -/

namespace Stmt

theorem functionsAll_append (ss ts : List Stmt) :
    functionsAll (ss ++ ts) = functionsAll ss ++ functionsAll ts := by
  induction ss with
  | nil => rfl
  | cons s ss ih => rw [List.cons_append, functionsAll, functionsAll, ih, List.append_assoc]

theorem functionsAll_singleton (s : Stmt) : functionsAll [s] = s.functions := by
  rw [functionsAll, functionsAll, List.append_nil]

theorem declarations_singleton (s : Stmt) : declarations [s] = s.declaration?.toList := by
  unfold declarations
  cases h : s.declaration? with
  | none => rw [List.filterMap_cons_none h]; rfl
  | some v => rw [List.filterMap_cons_some h]; rfl

end Stmt

namespace Context

/-- The context after statements that are typed in the innermost block. -/
def after (ctx : Context) (ts : List Stmt) : Context where
  scopes := ctx.scopes.modifyHead fun s => ⟨(Stmt.declarations ts).reverse ++ s.bindings⟩
  functions := (Stmt.functionsAll ts).reverse ++ ctx.functions
  returnTypes := ctx.returnTypes

/-- No name is declared twice in the innermost block, and none as a function. -/
structure Distinct (ctx : Context) : Prop where
  functions : (ctx.functions.map Signature.name).Nodup
  innermost : ∃ s outer, ctx.scopes = s :: outer ∧ DeclaredOnce s.bindings

variable {ctx : Context} {ts : List Stmt} {t : Stmt}

/-- What follows a statement knows the functions declared in it. -/
theorem known_after : (ctx.after [t]).known = ctx.known ++ t.functions := by
  simp [after, known, Stmt.functionsAll_singleton]

/-- What follows a statement sees the variable that it declares. -/
theorem visible_after (h : ctx.Distinct) :
    (ctx.after [t]).visible = t.declaration?.toList ++ ctx.visible := by
  obtain ⟨s, outer, hs, -⟩ := h.innermost
  cases hd : t.declaration? <;> simp [after, visible, hs, Stmt.declarations_singleton, hd]

theorem after_nil : ctx.after [] = ctx := by
  obtain ⟨scopes, functions, returnTypes⟩ := ctx
  cases scopes <;> rfl

/-- What two lists of statements leave is what the two as one leave. -/
theorem after_after {us : List Stmt} : (ctx.after ts).after us = ctx.after (ts ++ us) := by
  obtain ⟨scopes, functions, returnTypes⟩ := ctx
  cases scopes <;>
    simp [after, Stmt.declarations, Stmt.functionsAll_append, List.filterMap_append]

/-- Only a declaration changes the scopes. -/
theorem after_eq (hd : t.declaration? = none) :
    ctx.after [t] = { ctx with functions := t.functions.reverse ++ ctx.functions } := by
  obtain ⟨scopes, functions, returnTypes⟩ := ctx
  cases scopes <;> simp [after, Stmt.declarations_singleton, Stmt.functionsAll_singleton, hd]

/-- A statement that declares nothing leaves the context as it is. -/
theorem after_eq_self (hd : t.declaration? = none) (hf : t.functions = []) :
    ctx.after [t] = ctx := by
  rw [after_eq hd, hf]
  rfl

/-- Where no variable is declared, only the names of the functions have to be new. -/
theorem distinct_after_iff (h : ctx.Distinct) (hd : t.declaration? = none) :
    (ctx.after [t]).Distinct ↔
      ((t.functions.reverse ++ ctx.functions).map Signature.name).Nodup := by
  rw [after_eq hd]
  exact ⟨fun hafter => hafter.functions, fun hf => ⟨hf, h.innermost⟩⟩

/-- A block starts with no variables of its own. -/
theorem Distinct.block (h : ctx.Distinct) :
    (⟨.empty :: ctx.scopes, ctx.functions, ctx.returnTypes⟩ : Context).Distinct :=
  ⟨h.functions, _, _, rfl, List.nodup_nil⟩

/-- A block that starts with some variables and functions. -/
theorem distinct_block_after_iff {vs : List Variable} {outer : List Scope} {fs : List Signature}
    {ρs : List Ty} :
    ((⟨⟨vs⟩ :: outer, fs, ρs⟩ : Context).after ts).Distinct ↔
      DeclaredOnce (vs.reverse ++ Stmt.declarations ts) ∧
        (((Stmt.functionsAll ts).reverse ++ fs).map Signature.name).Nodup := by
  have honce : DeclaredOnce ((Stmt.declarations ts).reverse ++ vs) ↔
      DeclaredOnce (vs.reverse ++ Stmt.declarations ts) := by
    have hperm := List.reverse_perm ((Stmt.declarations ts).reverse ++ vs)
    rw [List.reverse_append, List.reverse_reverse] at hperm
    exact (hperm.map Variable.name).nodup_iff.symm
  rw [← honce]
  constructor
  · rintro ⟨hf, _, _, hscopes, hd⟩
    cases hscopes
    exact ⟨hd, hf⟩
  · rintro ⟨hd, hf⟩
    exact ⟨hf, _, _, rfl, hd⟩

/-- What holds at the end held all along. -/
theorem Distinct.of_after (h : (ctx.after ts).Distinct) : ctx.Distinct := by
  obtain ⟨hf, s, outer, hs, hd⟩ := h
  obtain ⟨scopes, functions, returnTypes⟩ := ctx
  refine ⟨?_, ?_⟩
  · rw [after, List.map_append] at hf
    exact (List.nodup_append.1 hf).2.1
  · cases scopes with
    | nil => cases hs
    | cons s' outer' =>
      cases hs
      exact ⟨_, _, rfl, hd.right_of_append⟩

end Context

end Scriptlet
