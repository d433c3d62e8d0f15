import Scriptlet.Proofs.Typing.WellTyped

/-!
What typing leaves of a context, whether it succeeds or fails, for any context and any tree. A scope
that is opened is closed again on every way out, so a statement changes nothing but two things: a
declaration adds its variable to the innermost scope, and a function that is declared, inside the
statement too, stays known. The depth of the scopes is then the number of those that are open,
whatever is asked of a context and whichever of it fails.
-/

namespace Scriptlet

open Outcome CheckM

/-! ## What is kept -/

namespace Context

/-- The functions of the one context are functions of the other, with their signatures. -/
def KeepsFunctions (ctx ctx' : Context) : Prop :=
  ∀ ⦃name f⦄, ctx.function? name = some f → ctx'.function? name = some f

/-- Nothing is changed but that functions may have been added. -/
structure KeepsScopes (ctx ctx' : Context) : Prop where
  scopes : ctx'.scopes = ctx.scopes
  returnTypes : ctx'.returnTypes = ctx.returnTypes
  functions : ctx.KeepsFunctions ctx'

/-- Nothing is changed but the innermost scope and that functions may have been added. -/
structure KeepsOuter (ctx ctx' : Context) : Prop where
  depth : ctx'.scopes.length = ctx.scopes.length
  outer : ctx'.scopes.tail = ctx.scopes.tail
  returnTypes : ctx'.returnTypes = ctx.returnTypes
  functions : ctx.KeepsFunctions ctx'

variable {ctx ctx₁ ctx' : Context}

theorem KeepsFunctions.rfl : ctx.KeepsFunctions ctx := fun _ _ h => h

theorem KeepsFunctions.trans (h : ctx.KeepsFunctions ctx₁) (h' : ctx₁.KeepsFunctions ctx') :
    ctx.KeepsFunctions ctx' := fun _ _ hf => h' (h hf)

theorem KeepsScopes.rfl : ctx.KeepsScopes ctx := ⟨Eq.refl _, Eq.refl _, .rfl⟩

theorem KeepsScopes.trans (h : ctx.KeepsScopes ctx₁) (h' : ctx₁.KeepsScopes ctx') :
    ctx.KeepsScopes ctx' :=
  ⟨h'.scopes.trans h.scopes, h'.returnTypes.trans h.returnTypes, h.functions.trans h'.functions⟩

/-- Where no scope changes, those around the innermost do not. -/
theorem KeepsScopes.keepsOuter (h : ctx.KeepsScopes ctx') : ctx.KeepsOuter ctx' :=
  ⟨congrArg List.length h.scopes, congrArg List.tail h.scopes, h.returnTypes, h.functions⟩

theorem KeepsOuter.trans (h : ctx.KeepsOuter ctx₁) (h' : ctx₁.KeepsOuter ctx') :
    ctx.KeepsOuter ctx' :=
  ⟨h'.depth.trans h.depth, h'.outer.trans h.outer, h'.returnTypes.trans h.returnTypes,
    h.functions.trans h'.functions⟩

/-- A function that is not known yet can be added. -/
theorem keepsFunctions_cons {f : Signature} (hf : f.name ∉ ctx.functions.map Signature.name) :
    ctx.KeepsFunctions { ctx with functions := f :: ctx.functions } := by
  intro name g hg
  have hname : g.name = name := by simpa using List.find?_some hg
  have hne : f.name ≠ name := by
    intro h
    exact hf (List.mem_map.2 ⟨g, List.mem_of_find?_eq_some hg, hname.trans h.symm⟩)
  rw [function?, List.find?_cons_of_neg (by simpa using hne)]
  exact hg

end Context

open Context

namespace CheckM

variable {α β : Type} {ctx ctx' : Context}

/-- What is done on the way out is done after an error too. -/
theorem left_andThen (m : CheckM α) (f : Context → Context) :
    (m.andThen f).left ctx = f (m.left ctx) := by
  rw [left, left, andThen]
  cases m ctx <;> rfl

theorem left_inScope (m : CheckM α) : (inScope m).left ctx =
    { m.left { ctx with scopes := .empty :: ctx.scopes } with
      scopes := (m.left { ctx with scopes := .empty :: ctx.scopes }).scopes.tail } :=
  left_andThen m fun c => { c with scopes := c.scopes.tail }

theorem left_inFunction (t : Ty) (m : CheckM α) : (inFunction t m).left ctx =
    { m.left { ctx with returnTypes := t :: ctx.returnTypes } with
      returnTypes := (m.left { ctx with returnTypes := t :: ctx.returnTypes }).returnTypes.tail } :=
  left_andThen m fun c => { c with returnTypes := c.returnTypes.tail }

/-- What changes at most the innermost scope changes none from a scope of its own. -/
theorem keepsScopes_inScope {m : CheckM α} (hm : ∀ c : Context, c.KeepsOuter (m.left c)) :
    ctx.KeepsScopes ((inScope m).left ctx) := by
  have h := hm { ctx with scopes := .empty :: ctx.scopes }
  rw [left_inScope]
  exact ⟨h.outer, h.returnTypes, h.functions⟩

/-- Entering and leaving a function touches no scope. -/
theorem keepsOuter_inFunction {t : Ty} {m : CheckM α} (hm : ∀ c : Context, c.KeepsOuter (m.left c)) :
    ctx.KeepsOuter ((inFunction t m).left ctx) := by
  have h := hm { ctx with returnTypes := t :: ctx.returnTypes }
  rw [left_inFunction]
  exact ⟨h.depth, h.outer, congrArg List.tail h.returnTypes, h.functions⟩

/-- Any change of the innermost scope leaves those around it. -/
theorem keepsOuter_of_scopes {s s' : Scope} {outer : List Scope} (h : ctx.scopes = s :: outer) :
    ctx.KeepsOuter { ctx with scopes := s' :: outer } := by
  refine ⟨?_, ?_, rfl, .rfl⟩ <;> simp [h]

/-- Declaring a variable changes the innermost scope or nothing at all. -/
theorem declare_cases (v : Variable) (position : Position) (ctx : Context) :
    (∃ s outer, ctx.scopes = s :: outer ∧ s.find? v.name = none ∧
        declare v position ctx = .ok () { ctx with scopes := ⟨v :: s.bindings⟩ :: outer }) ∨
      ∃ d, declare v position ctx = .error d ctx := by
  unfold declare
  cases hscopes : ctx.scopes with
  | nil => exact .inr ⟨_, rfl⟩
  | cons s outer =>
    cases hfind : s.find? v.name with
    | none => exact .inl ⟨s, outer, rfl, hfind, by simp [Scope.declare, hfind]⟩
    | some w => exact .inr ⟨⟨.duplicateDeclaration v.name, position⟩, by simp only [Scope.declare, hfind]⟩

theorem keepsOuter_declare (v : Variable) (position : Position) :
    ctx.KeepsOuter ((declare v position).left ctx) := by
  obtain ⟨s, outer, hscopes, -, h⟩ | ⟨d, h⟩ := declare_cases v position ctx
  · rw [left_eq_of_ok h]
    exact keepsOuter_of_scopes hscopes
  · rw [left_eq_of_error h]
    exact KeepsScopes.rfl.keepsOuter

/-- The parameters of a function go to the innermost scope, up to the first that is refused. -/
theorem keepsOuter_declareAll (xs : List (Variable × Position)) :
    ctx.KeepsOuter ((declareAll xs).left ctx) := by
  induction xs generalizing ctx with
  | nil => exact KeepsScopes.rfl.keepsOuter
  | cons x xs ih =>
    rw [declareAll]
    exact left_bind (keepsOuter_declare x.1 x.2) fun _ _ _ h => h.trans ih

end CheckM

/-! ## Statements -/

/-- Typing the statement, or the block, changes at most the innermost scope. -/
structure Node.KeepsOuter (n : Node) : Prop where
  stmt : ∀ ctx : Context, ctx.KeepsOuter ((checkStmt n).left ctx)
  block : ∀ ctx : Context, ctx.KeepsOuter ((checkBlock n).left ctx)

section Statements

variable {ctx : Context} {text : String} {span : Span} {children : List Node}

/-- A list of statements changes the innermost scope only, whether it is checked to its end or stops
at an error. -/
theorem keepsOuter_checkStmts {ns : List Node} (h : ∀ n ∈ ns, n.KeepsOuter) (ctx : Context) :
    ctx.KeepsOuter ((checkStmts ns).left ctx) := by
  induction ns generalizing ctx with
  | nil => exact KeepsScopes.rfl.keepsOuter
  | cons n ns ih =>
    obtain ⟨hn, hns⟩ := List.forall_mem_cons.1 h
    rw [checkStmts]
    refine left_bind (hn.stmt ctx) fun _ c _ hc => ?_
    exact left_bind (hc.trans (ih hns c)) fun _ _ _ h => h

/-- A function is added if it is not known yet, and its body is typed in a scope of its own. -/
theorem keepsScopes_checkFunction {name : String} {position : Position}
    {params : List (Variable × Position)} {t : Ty} {body : CheckM (List Stmt)}
    (hname : name ∉ ctx.functions.map Signature.name)
    (hbody : ∀ c : Context, c.KeepsOuter (body.left c)) :
    ctx.KeepsScopes ((checkFunction name position params t body).left ctx) := by
  have hinner : ∀ c : Context, c.KeepsOuter
      ((declareAll params >>= fun _ => inFunction t body).left c) := by
    intro c
    exact left_bind (keepsOuter_declareAll params) fun _ _ _ h =>
      h.trans (keepsOuter_inFunction hbody)
  have hadded : ctx.KeepsScopes
      { ctx with functions := ⟨name, params.map (·.1), t⟩ :: ctx.functions } :=
    ⟨rfl, rfl, keepsFunctions_cons hname⟩
  rw [checkFunction]
  refine left_bind hadded fun _ c _ hc => ?_
  refine left_bind (hc.trans (keepsScopes_inScope hinner)) fun _ c' _ hc' => ?_
  split <;> exact hc'

/-- What a loop declares is gone after it. -/
theorem keepsScopes_whileStmt (hchildren : ∀ n ∈ children, n.KeepsOuter) :
    ctx.KeepsScopes ((checkStmt ⟨.whileStmt, text, span, children⟩).left ctx) := by
  cases children with
  | nil =>
    rw [checkStmt]
    exact .rfl
  | cons test rest =>
    rw [checkStmt]
    refine (reads_checkCondition test).left_bind .rfl fun _ _ => ?_
    cases rest with
    | nil => exact .rfl
    | cons body rest =>
      have hbody := (hchildren body (by simp)).block
      exact left_bind (keepsScopes_inScope hbody) fun _ _ _ h => h

/-- A function leaves the scopes as they are. Its own name is not kept there. -/
theorem keepsScopes_funDec (hchildren : ∀ n ∈ children, n.KeepsOuter) :
    ctx.KeepsScopes ((checkStmt ⟨.funDec, text, span, children⟩).left ctx) := by
  cases children with
  | nil =>
    rw [checkStmt]
    exact .rfl
  | cons name rest =>
    rw [checkStmt]
    refine (Reads.reading _).left_bind .rfl fun f hf => ?_
    have hnew := newFunction_spec (reading_eq_ok.1 hf).1
    cases rest with
    | nil => exact .rfl
    | cons params rest =>
      refine (Reads.reading _).left_bind .rfl fun _ _ => ?_
      have hblock : ∀ n ∈ rest, ∀ c : Context, c.KeepsOuter ((checkBlock n).left c) :=
        fun n hn => (hchildren n (by simp [hn])).block
      split
      · exact keepsScopes_checkFunction hnew (hblock _ (by simp))
      · exact (Reads.reading _).left_bind .rfl fun _ _ =>
          keepsScopes_checkFunction hnew (hblock _ (by simp))
      · exact .rfl

/-- A statement that declares no variable leaves the scopes as they are. -/
theorem keepsScopes_checkStmt {rule : Rule} (hrule : rule ≠ .varDec)
    (hchildren : ∀ n ∈ children, n.KeepsOuter) :
    ctx.KeepsScopes ((checkStmt ⟨rule, text, span, children⟩).left ctx) := by
  by_cases hwhile : rule = .whileStmt
  · subst hwhile
    exact keepsScopes_whileStmt hchildren
  by_cases hfun : rule = .funDec
  · subst hfun
    exact keepsScopes_funDec hchildren
  -- What is left has no statements inside and only reads the context.
  suffices hreads : Reads (checkStmt ⟨rule, text, span, children⟩) by
    rw [hreads ctx]
    exact .rfl
  unfold checkStmt
  split
  · split
    · exact .throw _
    · exact (reads_checkExpr _).bind fun _ => .pure _
  · next h => exact absurd (congrArg Node.rule h) hrule
  · exact reads_checkAssign _ _
  · next h => exact absurd (congrArg Node.rule h) hwhile
  · next h => exact absurd (congrArg Node.rule h) hfun
  · exact reads_checkResult _ _
  · split
    · exact .throw _
    · exact (reads_checkCall (fun n _ => reads_checkExpr n) _).bind fun _ => .pure _
    · exact .throw _
  · exact .throw _

/-- The variable of a declaration, where its initializer is typed in the context. -/
def Node.Declares (ctx : Context) (n : Node) (v : Variable) : Prop :=
  n.rule = .varDec ∧ ∃ name initializer rest e, n.children = name :: initializer :: rest ∧
    name.rule = .id ∧ checkExpr initializer ctx = .ok e ctx ∧ v = ⟨name.text, e.ty⟩

/-- A declaration adds its variable, which the innermost scope does not have yet, or fails and adds
nothing. -/
theorem checkStmt_varDec_cases (ctx : Context) :
    (∃ v e s outer, Node.Declares ctx ⟨.varDec, text, span, children⟩ v ∧
        ctx.scopes = s :: outer ∧ s.find? v.name = none ∧
        checkStmt ⟨.varDec, text, span, children⟩ ctx =
          .ok (.varDec v e) { ctx with scopes := ⟨v :: s.bindings⟩ :: outer }) ∨
      ∃ d, checkStmt ⟨.varDec, text, span, children⟩ ctx = .error d ctx := by
  rw [checkStmt]
  rcases children with _ | ⟨name, rest⟩
  · exact .inr ⟨_, rfl⟩
  obtain ⟨d, hd⟩ | ⟨x, hx⟩ := (Reads.reading fun _ => name.identifier).error_or_ok ctx
  · exact .inr ⟨d, bind_eq_error.2 (.inl hd)⟩
  rcases rest with _ | ⟨initializer, rest⟩
  · exact .inr ⟨_, bind_eq_error.2 (.inr ⟨_, _, hx, rfl⟩)⟩
  obtain ⟨d, hd⟩ | ⟨e, he⟩ := (reads_checkExpr initializer).error_or_ok ctx
  · exact .inr ⟨d, bind_eq_error.2 (.inr ⟨_, _, hx, bind_eq_error.2 (.inl hd)⟩)⟩
  obtain ⟨hrule, rfl⟩ := Node.identifier_eq_ok_iff.1 (reading_eq_ok.1 hx).1
  obtain ⟨s, outer, hscopes, hnew, hdeclare⟩ | ⟨d, hdeclare⟩ :=
    declare_cases ⟨name.text, e.ty⟩ name.start ctx
  · refine .inl ⟨⟨name.text, e.ty⟩, e, s, outer, ?_, hscopes, hnew, ?_⟩
    · exact ⟨rfl, name, initializer, rest, e, rfl, hrule, he, rfl⟩
    · exact bind_eq_ok.2 ⟨_, _, hx, bind_eq_ok.2 ⟨_, _, he, bind_eq_ok.2 ⟨_, _, hdeclare, rfl⟩⟩⟩
  · exact .inr ⟨d, bind_eq_error.2 (.inr ⟨_, _, hx, bind_eq_error.2 (.inr ⟨_, _, he,
      bind_eq_error.2 (.inl hdeclare)⟩)⟩)⟩

theorem keepsOuter_varDec :
    ctx.KeepsOuter ((checkStmt ⟨.varDec, text, span, children⟩).left ctx) := by
  obtain ⟨v, e, s, outer, -, hscopes, -, h⟩ | ⟨d, h⟩ := checkStmt_varDec_cases ctx
  · rw [left_eq_of_ok h]
    exact keepsOuter_of_scopes hscopes
  · rw [left_eq_of_error h]
    exact KeepsScopes.rfl.keepsOuter

/-- No tree is checked with an effect on the scopes around the innermost. -/
theorem Node.keepsOuter (n : Node) : n.KeepsOuter := by
  induction n using Node.induction with
  | step rule text span children ih =>
    refine ⟨fun ctx => ?_, fun ctx => ?_⟩
    · by_cases hrule : rule = .varDec
      · subst hrule
        exact keepsOuter_varDec
      · exact (keepsScopes_checkStmt hrule ih).keepsOuter
    · unfold checkBlock
      split
      · next h =>
        cases h
        exact keepsOuter_checkStmts ih ctx
      · exact KeepsScopes.rfl.keepsOuter

/-- A statement that is refused leaves no declaration, whatever it holds. -/
theorem scopes_of_checkStmt_eq_error {n : Node} {d : Diagnostic} {ctx' : Context}
    (h : checkStmt n ctx = .error d ctx') : ctx'.scopes = ctx.scopes := by
  obtain ⟨rule, text, span, children⟩ := n
  by_cases hrule : rule = .varDec
  · subst hrule
    obtain ⟨v, e, s, outer, -, -, -, hok⟩ | ⟨d', herror⟩ := checkStmt_varDec_cases ctx
    · rw [hok] at h
      cases h
    · rw [herror] at h
      cases h
      rfl
  · rw [← left_eq_of_error h]
    exact (keepsScopes_checkStmt hrule fun n _ => n.keepsOuter).scopes

/-- A statement that is accepted declares at most one variable, and only as a declaration. -/
theorem scopes_of_checkStmt_eq_ok {n : Node} {t : Stmt} {ctx' : Context}
    (h : checkStmt n ctx = .ok t ctx') : (n.rule ≠ .varDec ∧ ctx'.scopes = ctx.scopes) ∨
      ∃ v s outer, n.Declares ctx v ∧ ctx.scopes = s :: outer ∧ s.find? v.name = none ∧
        ctx' = { ctx with scopes := ⟨v :: s.bindings⟩ :: outer } := by
  obtain ⟨rule, text, span, children⟩ := n
  by_cases hrule : rule = .varDec
  · subst hrule
    obtain ⟨v, e, s, outer, hv, hscopes, hnew, hok⟩ | ⟨d', herror⟩ := checkStmt_varDec_cases ctx
    · rw [hok] at h
      cases h
      exact .inr ⟨v, s, outer, hv, hscopes, hnew, rfl⟩
    · rw [herror] at h
      cases h
  · refine .inl ⟨hrule, ?_⟩
    rw [← left_eq_of_ok h]
    exact (keepsScopes_checkStmt hrule fun n _ => n.keepsOuter).scopes

end Statements

/-! ## Sessions -/

/-- A step of a session. An attempt goes on after a fault of one of its steps. -/
inductive Step where
  | stmt (n : Node)
  | expr (n : Node)
  | program (n : Node)
  | declare (v : Variable) (position : Position)
  | lookup (name : String) (position : Position)
  | attempt (steps : List Step)
  | inScope (steps : List Step)
  | inFunction (returnType : Ty) (steps : List Step)

namespace Step

mutual

def run : Step → CheckM Unit
  | stmt n => discard (checkStmt n)
  | expr n => discard (checkExpr n)
  | program n => discard (checkProgram n)
  | declare v position => CheckM.declare v position
  | lookup name position => discard (reading (·.lookup name position))
  | attempt steps => fun ctx => .ok () ((runAll steps).left ctx)
  | inScope steps => CheckM.inScope (runAll steps)
  | inFunction t steps => CheckM.inFunction t (runAll steps)

def runAll : List Step → CheckM Unit
  | [] => pure ()
  | step :: steps => do
    run step
    runAll steps

end

/-- `Meets steps ctx k c`: while the steps are run from `ctx`, there is a moment between two of them,
or after one that fails, at which the context is `c` and `k` more scopes are open than at the
start. -/
inductive Meets : List Step → Context → Nat → Context → Prop where
  | start : Meets steps ctx 0 ctx
  | next : step.run ctx = .ok () ctx₁ → Meets steps ctx₁ k c → Meets (step :: steps) ctx k c
  | failed : step.run ctx = .error d c → Meets (step :: steps) ctx 0 c
  | attempt : Meets ss ctx k c → Meets (.attempt ss :: steps) ctx k c
  | inScope : Meets ss { ctx with scopes := .empty :: ctx.scopes } k c →
      Meets (.inScope ss :: steps) ctx (k + 1) c
  | inFunction : Meets ss { ctx with returnTypes := t :: ctx.returnTypes } k c →
      Meets (.inFunction t ss :: steps) ctx k c

theorem left_discard {α : Type} {ctx : Context} (m : CheckM α) : (discard m).left ctx = m.left ctx :=
  left_bind (P := (· = m.left ctx)) rfl fun _ _ _ h => h

mutual

theorem keepsOuter_run (ctx : Context) : ∀ step : Step, ctx.KeepsOuter (step.run.left ctx)
  | stmt n => by
    rw [run, left_discard]
    exact n.keepsOuter.stmt ctx
  | expr n => by
    rw [run, left_discard, reads_checkExpr]
    exact KeepsScopes.rfl.keepsOuter
  | program n => by
    rw [run, left_discard, checkProgram]
    split
    · exact left_bind (keepsOuter_checkStmts (fun n _ => n.keepsOuter) ctx) fun _ _ _ h => h
    · exact KeepsScopes.rfl.keepsOuter
  | declare v position => by
    rw [run]
    exact keepsOuter_declare v position
  | lookup name position => by
    rw [run, left_discard, Reads.reading]
    exact KeepsScopes.rfl.keepsOuter
  | attempt steps => by
    rw [run]
    exact keepsOuter_runAll ctx steps
  | inScope steps => by
    rw [run]
    exact (keepsScopes_inScope fun c => keepsOuter_runAll c steps).keepsOuter
  | inFunction t steps => by
    rw [run]
    exact keepsOuter_inFunction fun c => keepsOuter_runAll c steps

/-- The scopes around a session are the same after it. -/
theorem keepsOuter_runAll (ctx : Context) :
    ∀ steps : List Step, ctx.KeepsOuter ((runAll steps).left ctx)
  | [] => by
    rw [runAll]
    exact KeepsScopes.rfl.keepsOuter
  | step :: steps => by
    rw [runAll]
    exact left_bind (keepsOuter_run ctx step) fun _ c _ h => h.trans (keepsOuter_runAll c steps)

end

/-- The depth of a place in a session is the number of blocks open there. -/
theorem Meets.depth_eq {steps : List Step} {ctx c : Context} {k : Nat} (h : Meets steps ctx k c) :
    c.scopes.length = ctx.scopes.length + k := by
  induction h with
  | start => rfl
  | next hrun _ ih =>
    rw [ih, ← left_eq_of_ok hrun, (keepsOuter_run _ _).depth]
  | failed hrun =>
    rw [← left_eq_of_error hrun, (keepsOuter_run _ _).depth]
    rfl
  | attempt _ ih => exact ih
  | inScope _ ih =>
    rw [ih, List.length_cons]
    omega
  | inFunction _ ih => exact ih

end Step

/-- Typing an expression leaves the context as it is. Typing a statement leaves all but the innermost
scope and the functions that it adds; a variable is added to that scope by a declaration that
succeeds, and by nothing else. So at each moment of a session, whatever has failed before, the
scopes are the outermost one and those that are open. -/
theorem scopes_of_session :
    (∀ (ctx : Context) (n : Node), (checkExpr n).left ctx = ctx) ∧
    (∀ (ctx : Context) (n : Node), ctx.KeepsOuter ((checkStmt n).left ctx) ∧
      (∀ d ctx', checkStmt n ctx = .error d ctx' → ctx'.scopes = ctx.scopes) ∧
      ∀ t ctx', checkStmt n ctx = .ok t ctx' →
        (n.rule ≠ .varDec ∧ ctx'.scopes = ctx.scopes) ∨
        ∃ v s outer, n.Declares ctx v ∧ ctx.scopes = s :: outer ∧ s.find? v.name = none ∧
          ctx' = { ctx with scopes := ⟨v :: s.bindings⟩ :: outer }) ∧
    ∀ steps k c, Step.Meets steps .empty k c → c.scopes.length = 1 + k := by
  refine ⟨fun ctx n => reads_checkExpr n ctx, fun ctx n => ⟨n.keepsOuter.stmt ctx, ?_, ?_⟩, ?_⟩
  · intro d ctx' h
    exact scopes_of_checkStmt_eq_error h
  · intro t ctx' h
    exact scopes_of_checkStmt_eq_ok h
  · intro steps k c h
    exact h.depth_eq

/-- A scope in which a name is declared twice: after the fault it is open still, and closed once the
attempt is over. -/
theorem scopes_of_session_duplicate :
    let a : Step := .declare ⟨"a", .num⟩ ⟨0, "shell"⟩
    let c : Context := ⟨[⟨[⟨"a", .num⟩]⟩, .empty], [], []⟩
    (∃ d, a.run c = .error d c) ∧
      (Step.Meets [.attempt [.inScope [a, a]]] .empty 1 c ∧ c.scopes.length = 1 + 1) ∧
      Step.Meets [.attempt [.inScope [a, a]]] .empty 0 .empty ∧
      Context.empty.scopes.length = 1 + 0 := by
  intro a c
  have hopen : Step.Meets [.attempt [.inScope [a, a]]] .empty 1 c :=
    .attempt (.inScope (.next rfl (.failed rfl)))
  have hclosed : Step.Meets [.attempt [.inScope [a, a]]] .empty 0 .empty := .next rfl .start
  exact ⟨⟨_, rfl⟩, ⟨hopen, scopes_of_session.2.2 _ 1 c hopen⟩, hclosed,
    scopes_of_session.2.2 _ 0 .empty hclosed⟩

end Scriptlet
