import Scriptlet.Folding
import Scriptlet.Proofs.Program.Parts
import Scriptlet.Proofs.Typing.WellTyped
import Scriptlet.Script.Emission

/-!
Folding keeps types. An operation that is computed was one on numbers and gives a number, a
difference from zero that becomes a negation was one of numbers, and what gives way to its right
operand had the type of it. So every expression of a well typed program has the type that it had
before, and the folded program is well typed with the same functions and variables at each place.
-/

namespace Scriptlet

/-! ## Literals and operators -/

/-- Sums, differences, products and quotients. -/
def BinaryOp.isComputed : BinaryOp → Bool
  | add | subtract | multiply | divide => true
  | _ => false

/-- A number to the left of an operator that is computed has one to its right and gives one. -/
theorem BinaryOp.HasTypes.of_num {op : BinaryOp} (h : op.HasTypes left right t)
    (hop : op.isComputed = true) (hleft : left = .num) : right = .num ∧ t = .num := by
  cases h with
  | relational hrel =>
    cases op with
    | add | subtract | multiply | divide => cases hrel
    | _ => cases hop
  | additive => exact ⟨hleft, hleft⟩
  | numeric => exact ⟨rfl, rfl⟩

/-- A choice between two values has a rule of its own. -/
theorem BinaryOp.not_hasTypes_coalesce : ¬coalesce.HasTypes left right t := by
  intro h
  cases h with
  | relational hrel => cases hrel
  | additive hop => simp at hop
  | numeric hop => simp at hop

namespace Literal

theorem ty_of_toFloat? {a : Literal} {x : Float} (h : a.toFloat? = some x) : a.ty = .num := by
  cases a with
  | number | bigInt => rfl
  | _ => cases h

theorem ty_of_isZero {a : Literal} (h : a.isZero = true) : a.ty = .num := by
  cases a with
  | number | bigInt => rfl
  | _ => cases h

theorem ty_of_negate? {a b : Literal} (h : a.negate? = some b) : b.ty = .num := by
  cases a with
  | number =>
    cases h
    rfl
  | bigInt =>
    obtain ⟨value, -, rfl⟩ := Option.map_eq_some_iff.1 h
    rfl
  | _ => cases h

theorem isComputed_of_wideArithmetic? {op : BinaryOp} {a b c : Int128}
    (h : wideArithmetic? op a b = some c) : op.isComputed = true := by
  cases op with
  | add | subtract | multiply | divide => rfl
  | _ => cases h

theorem isComputed_of_floatArithmetic? {op : BinaryOp} {a b c : Float}
    (h : floatArithmetic? op a b = some c) : op.isComputed = true := by
  cases op with
  | add | subtract | multiply | divide => rfl
  | _ => cases h

/-- Only numbers are computed with, and they give a number. -/
theorem arithmetic?_spec {op : BinaryOp} {a b c : Literal} (h : arithmetic? op a b = some c) :
    op.isComputed = true ∧ a.ty = .num ∧ c.ty = .num := by
  unfold arithmetic? at h
  split at h
  · obtain ⟨value, hvalue, rfl⟩ := Option.map_eq_some_iff.1 h
    exact ⟨isComputed_of_wideArithmetic? hvalue, rfl, rfl⟩
  · simp only [bind, Option.bind_eq_some_iff, pure, Option.some.injEq] at h
    obtain ⟨x, hx, y, -, z, hz, rfl⟩ := h
    exact ⟨isComputed_of_floatArithmetic? hz, ty_of_toFloat? hx, rfl⟩

end Literal

/-! ## Operations over folded operands -/

namespace Expr

variable {Φ : List Signature} {Γ : List Variable} {op : BinaryOp} {e l r : Expr} {t : Ty}

/-- The operands of an operation, and their types. -/
theorem WellTyped.operands (h : (Expr.binary op l r t).WellTyped Φ Γ) :
    l.WellTyped Φ Γ ∧ r.WellTyped Φ Γ ∧
      (op.HasTypes l.ty r.ty t ∨ op = .coalesce ∧ l.ty = r.ty ∧ t = l.ty) := by
  cases h with
  | binary hl hr htypes => exact ⟨hl, hr, .inl htypes⟩
  | coalesce hl hr hty => exact ⟨hl, hr, .inr ⟨rfl, hty, rfl⟩⟩

theorem WellTyped.of_num (h : (Expr.binary op l r t).WellTyped Φ Γ) (hop : op.isComputed = true)
    (hl : l.ty = .num) : r.ty = .num ∧ t = .num := by
  obtain ⟨-, -, htypes | ⟨rfl, -⟩⟩ := h.operands
  · exact htypes.of_num hop hl
  · cases hop

theorem WellTyped.simplifyBinary (h : (Expr.binary op l r t).WellTyped Φ Γ) :
    (Expr.simplifyBinary op l r t).WellTyped Φ Γ ∧ (Expr.simplifyBinary op l r t).ty = t := by
  obtain ⟨-, hr, htypes⟩ := h.operands
  unfold Expr.simplifyBinary
  split
  · split
    -- a difference from zero was one of numbers, so its type is that of a negation
    · next ha =>
      obtain ⟨hright, rfl⟩ := h.of_num rfl (Literal.ty_of_isZero ha)
      have hnegate : (Expr.unary .negate r UnaryOp.negate.ty).WellTyped Φ Γ := .unary hr hright
      exact ⟨hnegate, rfl⟩
    · exact ⟨h, rfl⟩
  · split
    -- both operands of a choice have its type, so either may stand for it
    · obtain htypes | ⟨-, hty, ht⟩ := htypes
      · exact absurd htypes BinaryOp.not_hasTypes_coalesce
      · exact ⟨hr, hty.symm.trans ht.symm⟩
    · exact ⟨h, rfl⟩
  · exact ⟨h, rfl⟩

theorem WellTyped.foldBinary (h : (Expr.binary op l r t).WellTyped Φ Γ) :
    (Expr.foldBinary op l r t).WellTyped Φ Γ ∧ (Expr.foldBinary op l r t).ty = t := by
  unfold Expr.foldBinary
  cases hc : constant? op l r with
  | none => exact h.simplifyBinary
  | some value =>
    cases l with
    | literal a =>
      cases r with
      | literal b =>
        obtain ⟨hop, ha, hvalue⟩ := Literal.arithmetic?_spec hc
        obtain ⟨-, rfl⟩ := h.of_num hop ha
        exact ⟨.literal, hvalue⟩
      | _ => cases hc
    | _ => cases hc

theorem WellTyped.foldUnary {op : UnaryOp} (h : (Expr.unary op e t).WellTyped Φ Γ) :
    (Expr.foldUnary op e t).WellTyped Φ Γ ∧ (Expr.foldUnary op e t).ty = t := by
  unfold Expr.foldUnary
  split
  · split
    · next hvalue =>
      cases h
      exact ⟨.literal, Literal.ty_of_negate? hvalue⟩
    · exact ⟨h, rfl⟩
  · exact ⟨h, rfl⟩

/-! ## Expressions -/

theorem map_ty_foldAll {es : List Expr} (h : ∀ e ∈ es, e.fold.ty = e.ty) :
    (foldAll es).map ty = es.map ty := by
  rw [foldAll_eq_map, List.map_map]
  exact List.map_congr_left h

theorem forall_mem_foldAll {P : Expr → Prop} {es : List Expr} (h : ∀ e ∈ es, P e.fold) :
    ∀ e ∈ foldAll es, P e := by
  rw [foldAll_eq_map]
  exact List.forall_mem_map.2 h

/-- A folded expression is well typed where the expression is, and has its type. -/
theorem WellTyped.fold (h : e.WellTyped Φ Γ) : e.fold.WellTyped Φ Γ ∧ e.fold.ty = e.ty := by
  induction h with
  | literal => exact ⟨.literal, rfl⟩
  | var hv => exact ⟨.var hv, rfl⟩
  | binary _ _ htypes ihl ihr =>
    rw [← ihl.2, ← ihr.2] at htypes
    exact (WellTyped.binary ihl.1 ihr.1 htypes).foldBinary
  | coalesce _ _ hty ihl ihr =>
    have h := (WellTyped.coalesce ihl.1 ihr.1 (by rw [ihl.2, ihr.2, hty])).foldBinary
    rwa [ihl.2] at h
  | unary _ hty ih => exact (WellTyped.unary ih.1 (ih.2.trans hty)).foldUnary
  | array _ hne hty ih =>
    refine ⟨.array (forall_mem_foldAll fun e he => (ih e he).1) ?_ ?_, rfl⟩
    · rwa [foldAll_eq_map, ne_eq, List.map_eq_nil_iff]
    · exact forall_mem_foldAll fun e he => (ih e he).2.trans (hty e he)
  | subscript _ _ hbase hindex ihb ihi =>
    exact ⟨.subscript ihb.1 ihi.1 (ihb.2.trans hbase) (ihi.2.trans hindex), rfl⟩
  | call hf _ htys ih =>
    refine ⟨.call hf (forall_mem_foldAll fun e he => (ih e he).1) ?_, rfl⟩
    rw [map_ty_foldAll fun e he => (ih e he).2, htys]

/-- An expression that can be assigned to is folded only inside. -/
theorem IsTarget.fold (h : e.IsTarget) : e.fold.IsTarget := by
  cases h with
  | var => exact .var
  | subscript => exact .subscript

end Expr

/-! ## Statements -/

namespace Stmt

/-- The same statement, but for expressions that have the types of those in their place. -/
inductive SameTypes : Stmt → Stmt → Prop where
  | print : e'.ty = e.ty → SameTypes (.print e) (.print e')
  | varDec : e'.ty = e.ty → SameTypes (.varDec v e) (.varDec v e')
  | assign : t'.ty = t.ty → e'.ty = e.ty → SameTypes (.assign t e) (.assign t' e')
  | loop : e'.ty = e.ty → List.Forall₂ SameTypes body body' →
      SameTypes (.loop e body) (.loop e' body')
  | funDec : List.Forall₂ SameTypes body body' → SameTypes (.funDec f body) (.funDec f body')
  | result : SameTypes (.result none) (.result none)
  | resultOf : e'.ty = e.ty → SameTypes (.result (some e)) (.result (some e'))
  | call : args'.map Expr.ty = args.map Expr.ty →
      SameTypes (.call name args t) (.call name args' t)

theorem declaration?_fold (s : Stmt) : s.fold.declaration? = s.declaration? := by
  cases s <;> rfl

theorem declarations_foldAll (ss : List Stmt) : declarations (foldAll ss) = declarations ss := by
  rw [foldAll_eq_map, declarations, List.filterMap_map]
  exact List.filterMap_congr fun s _ => declaration?_fold s

mutual

theorem functions_fold : (s : Stmt) → s.fold.functions = s.functions
  | loop _ body => by rw [fold, functions, functions, functionsAll_foldAll body]
  | funDec _ body => by rw [fold, functions, functions, functionsAll_foldAll body]
  | print _ | varDec _ _ | assign _ _ | result _ | call _ _ _ => rfl

theorem functionsAll_foldAll : (ss : List Stmt) → functionsAll (foldAll ss) = functionsAll ss
  | [] => rfl
  | s :: ss => by
    rw [foldAll, functionsAll, functionsAll, functions_fold s, functionsAll_foldAll ss]

end

theorem Returns.fold {s : Stmt} (h : s.Returns) : s.fold.Returns := by
  induction h with
  | result => exact .result
  | loop hs _ ih =>
    rw [Stmt.fold, foldAll_eq_map]
    exact .loop (List.mem_map_of_mem hs) ih

theorem exists_returns_foldAll {ss : List Stmt} (h : ∃ s ∈ ss, s.Returns) :
    ∃ s ∈ foldAll ss, s.Returns := by
  obtain ⟨s, hs, hreturns⟩ := h
  rw [foldAll_eq_map]
  exact ⟨s.fold, List.mem_map_of_mem hs, hreturns.fold⟩

/-- Wherever the statements are well typed, so are the folded ones, with the same types. -/
def FoldsWellTyped (ss : List Stmt) : Prop :=
  ∀ ⦃Φ Γ ρ⦄, AllWellTyped Φ Γ ρ ss →
    AllWellTyped Φ Γ ρ (foldAll ss) ∧ List.Forall₂ SameTypes ss (foldAll ss)

theorem WellTyped.fold {s : Stmt} (hbody : FoldsWellTyped s.contents) (h : s.WellTyped Φ Γ ρ) :
    s.fold.WellTyped Φ Γ ρ ∧ SameTypes s s.fold := by
  cases h with
  | print he =>
    obtain ⟨he, hty⟩ := he.fold
    exact ⟨.print he, .print hty⟩
  | @varDec e _ _ name _ he =>
    obtain ⟨he, hty⟩ := he.fold
    refine ⟨?_, .varDec hty⟩
    rw [Stmt.fold, ← hty]
    exact .varDec he
  | assign htarget ht hs hty =>
    obtain ⟨ht, htty⟩ := ht.fold
    obtain ⟨hs, hsty⟩ := hs.fold
    exact ⟨.assign htarget.fold ht hs (by rw [htty, hsty, hty]), .assign htty hsty⟩
  | loop he hbool hall honce =>
    obtain ⟨he, hty⟩ := he.fold
    obtain ⟨hall, hsame⟩ := hbody hall
    rw [← declarations_foldAll] at honce
    exact ⟨.loop he (hty.trans hbool) hall honce, .loop hty hsame⟩
  | funDec hall honce hreturns =>
    obtain ⟨hall, hsame⟩ := hbody hall
    rw [← declarations_foldAll] at honce
    exact ⟨.funDec hall honce (hreturns.imp_right exists_returns_foldAll), .funDec hsame⟩
  | result => exact ⟨.result, .result⟩
  | resultOf he hty hne =>
    obtain ⟨he, hfold⟩ := he.fold
    exact ⟨.resultOf he (hfold.trans hty) hne, .resultOf hfold⟩
  | call hcall =>
    obtain ⟨hfold, -⟩ := hcall.fold
    refine ⟨.call hfold, .call (Expr.map_ty_foldAll ?_)⟩
    cases hcall with
    | call _ hargs => exact fun e he => (hargs e he).fold.2

/-- What one statement declares is known to the next ones after folding as before. -/
theorem foldsWellTyped (ss : List Stmt) : FoldsWellTyped ss := by
  refine Stmt.induction
    (P := fun s => ∀ ⦃Φ Γ ρ⦄, s.WellTyped Φ Γ ρ → s.fold.WellTyped Φ Γ ρ ∧ SameTypes s s.fold)
    ?_ ?_ ?_ ss
  · intro s hbody Φ Γ ρ h
    exact h.fold hbody
  · intro Φ Γ ρ _
    exact ⟨.nil, .nil⟩
  · intro s ss hs ih Φ Γ ρ h
    cases h with
    | cons h hall =>
      obtain ⟨hfold, hsame⟩ := hs h
      obtain ⟨hall, hsames⟩ := ih hall
      -- the rest is typed after what the folded statement declares, which is the same
      rw [← functions_fold s, ← declaration?_fold s] at hall
      exact ⟨.cons hfold hall, .cons hsame hsames⟩

end Stmt

/-! ## Programs -/

theorem Program.WellTyped.fold {p : Program} (h : p.WellTyped) :
    p.fold.WellTyped ∧ List.Forall₂ Stmt.SameTypes p.statements p.fold.statements := by
  obtain ⟨hall, hsame⟩ := Stmt.foldsWellTyped p.statements h.statements
  refine ⟨⟨hall, ?_, ?_⟩, hsame⟩
  · rw [Program.fold, Stmt.declarations_foldAll]
    exact h.declarations
  · rw [Program.fold, Stmt.functionsAll_foldAll]
    exact h.functions

/-- Folding the program of any tree keeps the type of the expressions at every place of every
statement, and the folded program is well typed as the program is. -/
theorem Program.wellTyped_fold_of_analyze {n : Node} {p : Program} (h : analyze n = .ok p) :
    p.fold.WellTyped ∧ List.Forall₂ Stmt.SameTypes p.statements p.fold.statements :=
  (wellTyped_of_analyze h).fold

/-- Operations on numbers in a test, in an element assigned to, in a result and in a list. -/
def Program.constantsSource : String :=
  "fun f(a: num[]) -> num: (while 0n - a[0n] < 2n * 3n: (a[1n - 1n] = 0n - a[2n];) return -4n;) " ++
    "let b = [1n + 1n, 7n / 2n]; print(f(b));"

def Program.constantsScript : String :=
  "function f(a) \x7b\n  while (-a[0n] < 6n) \x7b\n    a[0n] = -a[2n];\n  \x7d\n" ++
    "  return -4n;\n\x7d\nlet b_1 = [2n, 3n];\nconsole.log(f(b_1));"

theorem Program.wellTyped_fold_constantsSource : ∃ p : Program, p.ReadFrom constantsSource ∧
    p.fold.script = constantsScript ∧ p.fold.WellTyped ∧
    List.Forall₂ Stmt.SameTypes p.statements p.fold.statements := by
  obtain ⟨p, ⟨tokens, tree, ht, hp, ha⟩, hscript⟩ := exists_readFrom constantsSource
    (P := fun p => p.fold.script = constantsScript) (by decide +kernel)
  exact ⟨p, ⟨tokens, tree, ht, hp, ha⟩, hscript, wellTyped_fold_of_analyze ha⟩

end Scriptlet
