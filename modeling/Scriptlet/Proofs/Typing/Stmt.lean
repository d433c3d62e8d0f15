import Scriptlet.Proofs.Typing.Context

/-!
The checker elaborates statements as the rules do. It walks a tree once and keeps what it knows in
three places: the scopes that are open, the functions declared so far and the types to return. What
a statement leaves there is a function of the context before and of the typed statement
(`Context.after`); the walk succeeds exactly if the rules apply and neither a name of the innermost
block nor a function is declared twice in what it leaves.
-/

namespace Scriptlet

open Outcome CheckM

/-! ## Parts of functions -/

namespace Stmt

mutual

/-- The check for a `return` looks into loops and not into functions. -/
theorem returns_iff : (s : Stmt) → (s.returns = true ↔ s.Returns)
  | result e => by
    rw [returns]
    exact iff_of_true rfl .result
  | loop test body => by
    rw [returns, anyReturns_iff body]
    constructor
    · rintro ⟨s, hs, h⟩
      exact .loop hs h
    · rintro ⟨⟩
      exact ⟨_, ‹_›, ‹_›⟩
  | print _ | varDec _ _ | assign _ _ | funDec _ _ | call _ _ _ =>
    iff_of_false (by simp [returns]) nofun

theorem anyReturns_iff : (ss : List Stmt) → (anyReturns ss = true ↔ ∃ s ∈ ss, s.Returns)
  | [] => by simp [anyReturns]
  | s :: ss => by
    rw [anyReturns, Bool.or_eq_true, returns_iff s, anyReturns_iff ss, List.exists_mem_cons_iff]

end

end Stmt

namespace Node

/-- A parameter is read to its name and its type. -/
theorem toParam_eq_ok_iff {n : Node} (h : Laid N .param n.shape) {v : Variable} :
    (∃ position, n.toParam = .ok (v, position)) ↔ ElabParam n.shape v := by
  generalize hs : n.shape = s at h
  generalize hc : Category.param = c at h
  cases h with
  | param ht =>
    obtain ⟨text, span, children, rfl, hchildren⟩ := exists_of_shape_eq_branch hs
    simp only [List.map_eq_cons_iff, List.map_eq_nil_iff] at hchildren
    obtain ⟨name, _, rfl, hname, type, _, rfl, rfl, rfl⟩ := hchildren
    obtain ⟨nameSpan, nameChildren, rfl⟩ := exists_of_shape_eq_leaf hname
    simp only [toParam, identifier, if_true, exceptBind_eq_ok, exceptPure_eq_ok, Except.ok.injEq,
      exists_eq_left', toType_eq_ok_iff ht rfl, Prod.mk.injEq]
    constructor
    · rintro ⟨_, t, ht, rfl, rfl⟩
      exact .intro ht
    · rintro ⟨ht⟩
      exact ⟨_, _, ‹_›, rfl, rfl⟩
  | _ => cases hc

theorem mapM_toParam_eq_ok_iff {ns : List Node} (h : ∀ n ∈ ns, Laid N .param n.shape)
    {vs : List Variable} :
    (∃ xs, ns.mapM toParam = .ok xs ∧ xs.map Prod.fst = vs) ↔
      List.Forall₂ ElabParam (ns.map shape) vs := by
  induction ns generalizing vs with
  | nil =>
    rw [List.map_nil, List.forall₂_nil_left_iff]
    constructor
    · rintro ⟨xs, hxs, rfl⟩
      cases hxs
      rfl
    · rintro rfl
      exact ⟨[], rfl, rfl⟩
  | cons n ns ih =>
    obtain ⟨hn, hns⟩ := List.forall_mem_cons.1 h
    simp only [List.mapM_cons, exceptBind_eq_ok, exceptPure_eq_ok, List.map_cons,
      List.forall₂_cons_left_iff, ← toParam_eq_ok_iff hn, ← ih hns]
    constructor
    · rintro ⟨_, ⟨⟨v, position⟩, hx, xs, hxs, rfl⟩, rfl⟩
      exact ⟨v, xs.map Prod.fst, ⟨position, hx⟩, ⟨xs, hxs, rfl⟩, rfl⟩
    · rintro ⟨v, _, ⟨position, hx⟩, ⟨xs, hxs, rfl⟩, rfl⟩
      exact ⟨(v, position) :: xs, ⟨(v, position), hx, xs, hxs, rfl⟩, rfl⟩

/-- The parameters of a function are read one by one. -/
theorem toParams_eq_ok_iff {n : Node} {ps : List Shape} (h : ∀ p ∈ ps, Laid N .param p)
    (hn : n.shape = .branch .params ps) {vs : List Variable} :
    (∃ xs, n.toParams = .ok xs ∧ xs.map Prod.fst = vs) ↔ List.Forall₂ ElabParam ps vs := by
  obtain ⟨text, span, children, rfl, rfl⟩ := exists_of_shape_eq_branch hn
  rw [toParams, if_pos rfl]
  exact mapM_toParam_eq_ok_iff fun n hn => h _ (List.mem_map_of_mem hn)

end Node

/-! ## Statements that declare no function -/

/-- An empty `return` is for functions that return nothing. -/
theorem expectResult_none_eq_ok_iff {expected : Ty} {position : Position} {u : Unit} :
    expectResult expected none position = .ok u ↔ expected = .void := by
  rw [expectResult]
  by_cases h : expected = .void <;> simp [h]

/-- A `return` with a value is for functions that return its type, and `void` is not the type of a
value to return. -/
theorem expectResult_some_eq_ok_iff {expected : Ty} {e : Expr} {position : Position} {u : Unit} :
    expectResult expected (some e) position = .ok u ↔ e.ty = expected ∧ expected ≠ .void := by
  rw [expectResult]
  by_cases h : expected = .void
  · rw [if_pos h]
    exact iff_of_false nofun fun hne => hne.2 h
  · rw [if_neg h, expectType_eq_ok_iff, eq_comm]
    exact (and_iff_left h).symm

/-- A `return` looks at the innermost of the types to return. -/
theorem checkResult_apply {span : Span} {children : List Node} {ctx : Context} :
    checkResult span children ctx =
      (match ctx.returnTypes with
      | [] => throw ⟨.returnOutsideFunction, span.start⟩
      | expected :: _ => do
        let value ← checkValue children
        reading fun _ => expectResult expected value span.start
        return .result value : CheckM Stmt) ctx := rfl

/-- The checker agrees with the rules on the tree of a statement. -/
def StmtAgrees (n : Node) : Prop :=
  ∀ ⦃ctx : Context⦄, ctx.Distinct → ∀ ⦃t ctx'⦄, checkStmt n ctx = .ok t ctx' ↔
    ElabStmt ctx.known ctx.visible ctx.returnTypes.head? n.shape t ∧ (ctx.after [t]).Distinct ∧
      ctx' = ctx.after [t]

/-- The checker agrees with the rules on the statements of a block. -/
def BlockAgrees (ss : List Shape) (m : CheckM (List Stmt)) : Prop :=
  ∀ ⦃ctx : Context⦄, ctx.Distinct → ∀ ⦃ts ctx'⦄, m ctx = .ok ts ctx' ↔
    ElabStmts ctx.known ctx.visible ctx.returnTypes.head? ss ts ∧ (ctx.after ts).Distinct ∧
      ctx' = ctx.after ts

namespace StmtAgrees

variable {n : Node}

/-- A statement that declares nothing leaves the context as it is. -/
theorem of_reading
    (hpure : ∀ {Φ Γ ρ t}, ElabStmt Φ Γ ρ n.shape t → t.declaration? = none ∧ t.functions = [])
    (h : ∀ ⦃ctx : Context⦄, ctx.Distinct → ∀ ⦃t ctx'⦄, checkStmt n ctx = .ok t ctx' ↔
      ElabStmt ctx.known ctx.visible ctx.returnTypes.head? n.shape t ∧ ctx' = ctx) :
    StmtAgrees n := by
  intro ctx hctx t ctx'
  rw [h hctx]
  refine and_congr_right fun ht => ?_
  obtain ⟨hd, hf⟩ := hpure ht
  rw [Context.after_eq_self hd hf]
  exact (and_iff_right hctx).symm

/-- Any expression can be printed. -/
theorem print (h : Laid Pattern.number.Describes .expr s)
    (hn : n.shape = .branch .printStmt [s]) : StmtAgrees n := by
  obtain ⟨text, span, children, rfl, hchildren⟩ := Node.exists_of_shape_eq_branch hn
  simp only [List.map_eq_cons_iff, List.map_eq_nil_iff] at hchildren
  obtain ⟨argument, _, rfl, rfl, rfl⟩ := hchildren
  apply of_reading
  · rw [hn]
    rintro Φ Γ ρ t ⟨⟩
    exact ⟨rfl, rfl⟩
  · intro ctx hctx t ctx'
    have ha := Context.agrees_of_laid hctx.functions h rfl
    simp only [hn, checkStmt, checkExpr_bind_eq_ok, pure_eq_ok, ha.checkExpr_eq_ok_iff]
    generalize ctx.returnTypes.head? = ρ
    constructor
    · rintro ⟨e, he, rfl, rfl⟩
      exact ⟨.print he, rfl⟩
    · rintro ⟨ht, rfl⟩
      cases ht with
      | print he => exact ⟨_, he.self, rfl, rfl⟩

/-- An assignment asks for one type on both sides. The layout says already what can stand to the
left. -/
theorem assign (htarget : s.rule = .id ∨ s.rule = .subscript)
    (hs : Laid Pattern.number.Describes .expr s) (hs' : Laid Pattern.number.Describes .expr s')
    (hn : n.shape = .branch .assignStmt [s, s']) : StmtAgrees n := by
  obtain ⟨text, span, children, rfl, hchildren⟩ := Node.exists_of_shape_eq_branch hn
  simp only [List.map_eq_cons_iff, List.map_eq_nil_iff] at hchildren
  obtain ⟨target, _, rfl, rfl, source, _, rfl, rfl, rfl⟩ := hchildren
  apply of_reading
  · rw [hn]
    rintro Φ Γ ρ t ⟨⟩
    exact ⟨rfl, rfl⟩
  · intro ctx hctx t ctx'
    have ht := Context.agrees_of_laid hctx.functions hs rfl
    have hsource := Context.agrees_of_laid hctx.functions hs' rfl
    rw [Node.shape_rule] at htarget
    simp only [hn, checkStmt, checkAssign, checkTarget, if_pos htarget, checkExpr_bind_eq_ok,
      reading_bind_eq_ok, pure_eq_ok, expectType_eq_ok_iff, ht.checkExpr_eq_ok_iff,
      hsource.checkExpr_eq_ok_iff]
    generalize ctx.returnTypes.head? = ρ
    constructor
    · rintro ⟨e, he, e', he', -, hty, rfl, rfl⟩
      exact ⟨.assign he (hty ▸ he'), rfl⟩
    · rintro ⟨ht, rfl⟩
      cases ht with
      | assign he he' => exact ⟨_, he.self, _, he'.self, (), he.ty_eq.trans he'.ty_eq.symm, rfl, rfl⟩

/-- A `return` looks only at the innermost of the types to return. -/
theorem result (hn : n.shape = .branch .returnStmt []) : StmtAgrees n := by
  obtain ⟨text, span, children, rfl, hchildren⟩ := Node.exists_of_shape_eq_branch hn
  obtain rfl := List.map_eq_nil_iff.1 hchildren
  apply of_reading
  · rw [hn]
    rintro Φ Γ ρ t ⟨⟩
    exact ⟨rfl, rfl⟩
  · intro ctx hctx t ctx'
    rw [hn, checkStmt, checkResult_apply]
    cases ctx.returnTypes with
    | nil => exact iff_of_false nofun nofun
    | cons expected outer =>
      simp only [checkValue, pure_bind, reading_bind_eq_ok, pure_eq_ok, List.head?_cons]
      constructor
      · rintro ⟨_, hresult, rfl, rfl⟩
        obtain rfl := expectResult_none_eq_ok_iff.1 hresult
        exact ⟨.result, rfl⟩
      · rintro ⟨⟨⟩, rfl⟩
        exact ⟨(), expectResult_none_eq_ok_iff.2 rfl, rfl, rfl⟩

/-- A `return` with a value needs a function around it that returns the type of the value. -/
theorem resultOf (h : Laid Pattern.number.Describes .expr s)
    (hn : n.shape = .branch .returnStmt [s]) : StmtAgrees n := by
  obtain ⟨text, span, children, rfl, hchildren⟩ := Node.exists_of_shape_eq_branch hn
  simp only [List.map_eq_cons_iff, List.map_eq_nil_iff] at hchildren
  obtain ⟨value, _, rfl, rfl, rfl⟩ := hchildren
  apply of_reading
  · rw [hn]
    rintro Φ Γ ρ t ⟨⟩
    exact ⟨rfl, rfl⟩
  · intro ctx hctx t ctx'
    have hv := Context.agrees_of_laid hctx.functions h rfl
    rw [hn, checkStmt, checkResult_apply]
    cases ctx.returnTypes with
    | nil => exact iff_of_false nofun nofun
    | cons expected outer =>
      simp only [checkValue, bind_assoc, pure_bind, checkExpr_bind_eq_ok, reading_bind_eq_ok,
        pure_eq_ok, hv.checkExpr_eq_ok_iff, List.head?_cons]
      constructor
      · rintro ⟨e, he, _, hresult, rfl, rfl⟩
        obtain ⟨rfl, hne⟩ := expectResult_some_eq_ok_iff.1 hresult
        exact ⟨.resultOf he hne, rfl⟩
      · rintro ⟨h, rfl⟩
        cases h with
        | resultOf he hne =>
          exact ⟨_, he.self, (), expectResult_some_eq_ok_iff.2 ⟨he.ty_eq, hne⟩, rfl, rfl⟩

/-- A call that stands alone is checked as a call in an expression, and its result is dropped. -/
theorem callStmt (hrule : s.rule = .call) (h : Laid Pattern.number.Describes .expr s)
    (hn : n.shape = .branch .callStmt [s]) :
    StmtAgrees n := by
  obtain ⟨text, span, children, rfl, hchildren⟩ := Node.exists_of_shape_eq_branch hn
  simp only [List.map_eq_cons_iff, List.map_eq_nil_iff] at hchildren
  obtain ⟨call, _, rfl, hcall, rfl⟩ := hchildren
  obtain ⟨name, es, rfl, hes⟩ := h.eq_branch_of_call hrule
  obtain ⟨callText, callSpan, parts, rfl, hparts⟩ := Node.exists_of_shape_eq_branch hcall
  obtain ⟨name, args, rfl, hname, rfl⟩ := List.map_eq_cons_iff.1 hparts
  apply of_reading
  · rw [hn]
    rintro Φ Γ ρ t ⟨⟩
    exact ⟨rfl, rfl⟩
  · intro ctx hctx t ctx'
    have hargs : ∀ n ∈ args, ctx.Agrees n := fun n hn =>
      Context.agrees_of_laid hctx.functions (hes _ (List.mem_map_of_mem hn)) rfl
    simp only [hn, checkStmt, checkCall_bind_eq_ok, pure_eq_ok]
    generalize ctx.returnTypes.head? = ρ
    constructor
    · rintro ⟨⟨f, es⟩, h, rfl, rfl⟩
      obtain ⟨hf, rfl, hes⟩ := (Context.checkCall_eq_ok_iff hctx.functions hname hargs).1 h
      exact ⟨.call (.call hf hes), rfl⟩
    · rintro ⟨ht, rfl⟩
      cases ht with
      | call ht =>
        cases ht with
        | call hf hes =>
          exact ⟨⟨_, _⟩, (Context.checkCall_eq_ok_iff hctx.functions hname hargs).2 ⟨hf, rfl, hes⟩,
            rfl, rfl⟩

/-- A declaration adds to the innermost scope, if the name is not there yet. -/
theorem varDec (h : Laid Pattern.number.Describes .expr s)
    (hn : n.shape = .branch .varDec [.leaf .id name, s]) : StmtAgrees n := by
  obtain ⟨text, span, children, rfl, hchildren⟩ := Node.exists_of_shape_eq_branch hn
  simp only [List.map_eq_cons_iff, List.map_eq_nil_iff] at hchildren
  obtain ⟨nameNode, _, rfl, hname, initializer, _, rfl, rfl, rfl⟩ := hchildren
  obtain ⟨nameSpan, nameChildren, rfl⟩ := Node.exists_of_shape_eq_leaf hname
  rintro ⟨scopes, fs, ρs⟩ hctx t ctx'
  obtain ⟨scope, outer, rfl, hscope⟩ := hctx.innermost
  have hi := Context.agrees_of_laid hctx.functions h rfl
  simp only [hn, checkStmt, checkVarDec, reading_bind_eq_ok, checkExpr_bind_eq_ok, Node.identifier,
    if_true, Except.ok.injEq, exists_eq_left', hi.checkExpr_eq_ok_iff]
  simp only [bind_eq_ok, pure_eq_ok]
  constructor
  · rintro ⟨e, he, _, c, hdeclare, rfl, rfl⟩
    obtain ⟨hfresh, rfl⟩ := declare_eq_ok.1 hdeclare
    exact ⟨.varDec he, ⟨hctx.functions, _, _, rfl, DeclaredOnce.cons_iff.2 ⟨hfresh, hscope⟩⟩, rfl⟩
  · rintro ⟨ht, hafter, rfl⟩
    generalize List.head? _ = ρ at ht
    cases ht with
    | varDec he =>
      obtain rfl := he.ty_eq
      obtain ⟨_, _, hscopes, honce⟩ := hafter.innermost
      cases hscopes
      have hfresh := (DeclaredOnce.cons_iff.1 honce).1
      exact ⟨_, he, (), _, declare_eq_ok.2 ⟨hfresh, rfl⟩, rfl, rfl⟩

end StmtAgrees

/-! ## Blocks -/

/-- Statements in a row: each is checked in what the ones before it leave. That no name is declared
twice is asked of the end only, as it then holds all along. -/
theorem checkStmts_agrees {ns : List Node} (h : ∀ n ∈ ns, StmtAgrees n) :
    BlockAgrees (ns.map Node.shape) (checkStmts ns) := by
  induction ns with
  | nil =>
    intro ctx hctx ts ctx'
    rw [checkStmts, pure_eq_ok, List.map_nil]
    constructor
    · rintro ⟨rfl, rfl⟩
      rw [Context.after_nil]
      exact ⟨.nil, hctx, rfl⟩
    · rintro ⟨⟨⟩, -, rfl⟩
      exact ⟨rfl, Context.after_nil⟩
  | cons n ns ih =>
    obtain ⟨hn, hns⟩ := List.forall_mem_cons.1 h
    intro ctx hctx ts ctx'
    simp only [checkStmts, bind_eq_ok, pure_eq_ok, hn hctx, List.map_cons]
    -- the rest is typed in what the first statement leaves
    have hrest : ∀ {t : Stmt}, (ctx.after [t]).Distinct → ∀ {ts' : List Stmt} {c : Context},
        checkStmts ns (ctx.after [t]) = .ok ts' c ↔
          ElabStmts (ctx.known ++ t.functions) (t.declaration?.toList ++ ctx.visible)
            ctx.returnTypes.head? (ns.map Node.shape) ts' ∧
          (ctx.after (t :: ts')).Distinct ∧ c = ctx.after (t :: ts') := by
      intro t ht ts' c
      rw [ih hns ht, Context.known_after, Context.visible_after hctx, Context.after_after]
      rfl
    constructor
    · rintro ⟨t, _, ⟨ht, hafter, rfl⟩, ts', c, hread, rfl, rfl⟩
      obtain ⟨hts, hdistinct, rfl⟩ := (hrest hafter).1 hread
      exact ⟨.cons ht hts, hdistinct, rfl⟩
    · rintro ⟨hts, hdistinct, rfl⟩
      cases hts with
      | @cons _ _ _ _ t _ ts' ht hts =>
        have hafter : (ctx.after [t]).Distinct := by
          rw [← List.singleton_append, ← Context.after_after] at hdistinct
          exact hdistinct.of_after
        exact ⟨t, _, ⟨ht, hafter, rfl⟩, ts', _, (hrest hafter).2 ⟨hts, hdistinct, rfl⟩, rfl, rfl⟩

theorem checkBlock_agrees {n : Node} {ss : List Shape} (hn : n.shape = .branch .block ss)
    (h : ∀ n, n.shape ∈ ss → StmtAgrees n) : BlockAgrees ss (checkBlock n) := by
  obtain ⟨text, span, children, rfl, rfl⟩ := Node.exists_of_shape_eq_branch hn
  rw [checkBlock]
  exact checkStmts_agrees fun n hn => h n (List.mem_map_of_mem hn)

/-- The test of a loop is an expression of type `bool`. -/
theorem checkCondition_eq_ok_iff {ctx : Context} {n : Node} (hn : ctx.Agrees n) {e : Expr} :
    checkCondition n ctx = .ok e ctx ↔ ElabExpr ctx.known ctx.visible n.shape e .bool := by
  simp only [checkCondition, checkExpr_bind_eq_ok, reading_bind_eq_ok, pure_eq_ok, and_true,
    expectType_eq_ok_iff, hn.checkExpr_eq_ok_iff]
  constructor
  · rintro ⟨e, he, -, hty, rfl⟩
    exact hty ▸ he
  · intro he
    exact ⟨e, he.self, (), he.ty_eq.symm, rfl⟩

namespace StmtAgrees

variable {n : Node}

/-- The body of a loop is a block of its own, from which only the functions come out. -/
theorem loop (h : Laid Pattern.number.Describes .expr s) (hb : ∀ n, n.shape ∈ ss → StmtAgrees n)
    (hn : n.shape = .branch .whileStmt [s, .branch .block ss]) : StmtAgrees n := by
  obtain ⟨text, span, children, rfl, hchildren⟩ := Node.exists_of_shape_eq_branch hn
  simp only [List.map_eq_cons_iff, List.map_eq_nil_iff] at hchildren
  obtain ⟨test, _, rfl, rfl, body, _, rfl, hbody, rfl⟩ := hchildren
  intro ctx hctx t ctx'
  have ht := Context.agrees_of_laid hctx.functions h rfl
  have hblock := checkBlock_agrees hbody hb hctx.block
  simp only [hn, checkStmt, (reads_checkCondition test).bind_eq_ok, checkCondition_eq_ok_iff ht,
    bind_eq_ok, inScope_eq_ok, pure_eq_ok]
  constructor
  · rintro ⟨e, he, ts, _, ⟨_, hread, rfl⟩, rfl, rfl⟩
    obtain ⟨hts, hdistinct, rfl⟩ := hblock.1 hread
    obtain ⟨honce, hfs⟩ := Context.distinct_block_after_iff.1 hdistinct
    refine ⟨.loop he hts honce, (Context.distinct_after_iff hctx rfl).2 hfs, ?_⟩
    exact (Context.after_eq (t := .loop e ts) rfl).symm
  · rintro ⟨hstmt, hafter, rfl⟩
    generalize hρ : ctx.returnTypes.head? = ρ at hstmt
    cases hstmt with
    | loop he hts honce =>
      subst hρ
      have hfs := (Context.distinct_after_iff hctx rfl).1 hafter
      have hread := hblock.2 ⟨hts, Context.distinct_block_after_iff.2 ⟨honce, hfs⟩, rfl⟩
      exact ⟨_, he, _, _, ⟨_, hread, rfl⟩, rfl, Context.after_eq rfl⟩

end StmtAgrees

/-! ## Functions -/

theorem Context.function?_eq_none_iff {ctx : Context} {name : String} :
    ctx.function? name = none ↔ name ∉ ctx.functions.map Signature.name := by
  simp [function?, List.find?_eq_none]

/-- The name of a function is one that no function has yet, in whatever block that one stands. -/
theorem Context.newFunction_eq_ok_iff {ctx : Context} {n : Node} (hn : n.shape = .leaf .id name)
    {text : String} :
    ctx.newFunction n = .ok text ↔ text = name ∧ name ∉ ctx.functions.map Signature.name := by
  obtain ⟨span, children, rfl⟩ := Node.exists_of_shape_eq_leaf hn
  rw [← function?_eq_none_iff]
  simp only [newFunction, Node.identifier, if_true, exceptBind_eq_ok, Except.ok.injEq,
    exists_eq_left']
  cases ctx.function? name with
  | none => simp [exceptPure_eq_ok]
  | some f => simp [throw, throwThe, MonadExceptOf.throw]

/-- The context of the body of a function. -/
def Context.inside (ctx : Context) (f : Signature) : Context :=
  ⟨⟨f.params.reverse⟩ :: ctx.scopes, f :: ctx.functions, f.returnType :: ctx.returnTypes⟩

theorem Context.known_inside {ctx : Context} {f : Signature} :
    (ctx.inside f).known = ctx.known ++ [f] := by
  simp [inside, known]

theorem Context.visible_inside {ctx : Context} {f : Signature} :
    (ctx.inside f).visible = f.params.reverse ++ ctx.visible := by
  simp [inside, visible]

/-- After a function, its body's functions and itself are known, and nothing else has changed. -/
theorem Context.after_funDec {ctx : Context} {f : Signature} {body : List Stmt} :
    ctx.after [.funDec f body] =
      { ctx with functions := (Stmt.functionsAll body).reverse ++ f :: ctx.functions } := by
  rw [after_eq rfl, Stmt.functions, List.reverse_cons, List.append_assoc]
  rfl

theorem Context.distinct_after_funDec_iff {ctx : Context} (h : ctx.Distinct) {f : Signature}
    {body : List Stmt} : (ctx.after [.funDec f body]).Distinct ↔
      (((Stmt.functionsAll body).reverse ++ f :: ctx.functions).map Signature.name).Nodup := by
  rw [distinct_after_iff h rfl, Stmt.functions, List.reverse_cons, List.append_assoc]
  rfl

/-- Inside a function with a new name, only the parameters are in the innermost block. -/
theorem Context.Distinct.inside {ctx : Context} (h : ctx.Distinct) {f : Signature}
    (hf : f.name ∉ ctx.functions.map Signature.name) (hparams : DeclaredOnce f.params.reverse) :
    (ctx.inside f).Distinct :=
  ⟨List.nodup_cons.2 ⟨hf, h.functions⟩, _, _, rfl, hparams⟩

/-- The parameters are declared in a scope of their own, in which the body then runs. -/
theorem inFunctionScope_eq_ok {ctx ctx' : Context} {m : CheckM (List Stmt)} {f : Signature}
    {xs : List (Variable × Position)} (hxs : xs.map Prod.fst = f.params) {body : List Stmt} :
    (inScope do declareAll xs; inFunction f.returnType m)
        { ctx with functions := f :: ctx.functions } = .ok body ctx' ↔
      DeclaredOnce f.params.reverse ∧ ∃ c, m (ctx.inside f) = .ok body c ∧
        ctx' = ⟨c.scopes.tail, c.functions, c.returnTypes.tail⟩ := by
  have hempty : DeclaredOnce Scope.empty.bindings := List.nodup_nil
  simp only [inScope_eq_ok, bind_eq_ok, inFunction_eq_ok, declareAll_eq_ok hempty, hxs]
  simp only [Scope.empty, List.append_nil]
  constructor
  · rintro ⟨_, ⟨_, _, ⟨hparams, rfl⟩, c, hread, rfl⟩, rfl⟩
    exact ⟨hparams, c, hread, rfl⟩
  · rintro ⟨hparams, c, hread, rfl⟩
    exact ⟨_, ⟨(), _, ⟨hparams, rfl⟩, c, hread, rfl⟩, rfl⟩

/-- The body of a function, with its parameters in the same block. -/
theorem checkBody_eq_ok_iff {ctx : Context} (hctx : ctx.Distinct) {ss : List Shape}
    {m : CheckM (List Stmt)} (hm : BlockAgrees ss m) {f : Signature}
    {xs : List (Variable × Position)}
    (hxs : xs.map Prod.fst = f.params) (hf : f.name ∉ ctx.functions.map Signature.name)
    {body : List Stmt} {ctx' : Context} :
    (inScope do declareAll xs; inFunction f.returnType m)
        { ctx with functions := f :: ctx.functions } = .ok body ctx' ↔
      ElabStmts (ctx.known ++ [f]) (f.params.reverse ++ ctx.visible) (some f.returnType) ss body ∧
        DeclaredOnce (f.params ++ Stmt.declarations body) ∧
        (ctx.after [.funDec f body]).Distinct ∧ ctx' = ctx.after [.funDec f body] := by
  rw [inFunctionScope_eq_ok hxs, Context.distinct_after_funDec_iff hctx, Context.after_funDec]
  constructor
  · rintro ⟨hparams, _, hread, rfl⟩
    obtain ⟨hbody, hblock, rfl⟩ := (hm (hctx.inside hf hparams)).1 hread
    rw [Context.known_inside, Context.visible_inside] at hbody
    obtain ⟨honce, hfs'⟩ := Context.distinct_block_after_iff.1 hblock
    rw [List.reverse_reverse] at honce
    exact ⟨hbody, honce, hfs', rfl⟩
  · rintro ⟨hbody, honce, hfs', rfl⟩
    rw [← f.params.reverse_reverse] at honce
    have hblock : ((ctx.inside f).after body).Distinct :=
      Context.distinct_block_after_iff.2 ⟨honce, hfs'⟩
    have hinside := hblock.of_after
    obtain ⟨_, _, hscopes, hparams⟩ := hinside.innermost
    cases hscopes
    rw [← Context.known_inside, ← Context.visible_inside] at hbody
    exact ⟨hparams, _, (hm hinside).2 ⟨hbody, hblock, rfl⟩, rfl⟩

/-- A function from its head and its body: it is known in its own body, its parameters are in one
block with what the body declares, and it has a `return` unless it returns nothing. -/
theorem checkFunction_eq_ok_iff {ctx : Context} (hctx : ctx.Distinct) {ss : List Shape}
    {m : CheckM (List Stmt)} (hm : BlockAgrees ss m) {f : Signature} {position : Position}
    {xs : List (Variable × Position)} (hxs : xs.map Prod.fst = f.params)
    (hf : f.name ∉ ctx.functions.map Signature.name) {t : Stmt} {ctx' : Context} :
    checkFunction f.name position xs f.returnType m ctx = .ok t ctx' ↔
      ∃ body, t = .funDec f body ∧
        ElabStmts (ctx.known ++ [f]) (f.params.reverse ++ ctx.visible) (some f.returnType) ss body ∧
        DeclaredOnce (f.params ++ Stmt.declarations body) ∧
        (f.returnType = .void ∨ ∃ s ∈ body, s.Returns) ∧ (ctx.after [t]).Distinct ∧
        ctx' = ctx.after [t] := by
  have hsignature : (⟨f.name, xs.map Prod.fst, f.returnType⟩ : Signature) = f := by rw [hxs]
  have hbody := @checkBody_eq_ok_iff ctx hctx ss m hm f xs hxs hf
  rw [checkFunction, hsignature, addFunction_bind_apply, bind_eq_ok]
  simp only [hbody]
  constructor
  · rintro ⟨body, _, ⟨hts, honce, hdistinct, rfl⟩, hend⟩
    split at hend
    · next hreturns =>
      obtain ⟨rfl, rfl⟩ := pure_eq_ok.1 hend
      rw [Stmt.anyReturns_iff] at hreturns
      exact ⟨body, rfl, hts, honce, hreturns, hdistinct, rfl⟩
    · cases hend
  · rintro ⟨body, rfl, hts, honce, hreturns, hdistinct, rfl⟩
    rw [← Stmt.anyReturns_iff] at hreturns
    refine ⟨body, _, ⟨hts, honce, hdistinct, rfl⟩, ?_⟩
    rw [if_pos hreturns]
    rfl

/-- The head and the body of a function that returns a given type. -/
theorem checkDeclaration_iff {ctx : Context} (hctx : ctx.Distinct) {name params body : Node}
    (hname : name.shape = .leaf .id x) (hparams : params.shape = .branch .params ps)
    (hps : ∀ p ∈ ps, Laid N .param p) (hbody : BlockAgrees ss (checkBlock body)) (returnType : Ty)
    (t : Stmt) (ctx' : Context) :
    (∃ text, ctx.newFunction name = .ok text ∧ ∃ xs, params.toParams = .ok xs ∧
        checkFunction text name.start xs returnType (checkBlock body) ctx = .ok t ctx') ↔
      (∃ vs body, List.Forall₂ ElabParam ps vs ∧
        ElabStmts (ctx.known ++ [⟨x, vs, returnType⟩]) (vs.reverse ++ ctx.visible) (some returnType)
          ss body ∧
        DeclaredOnce (vs ++ Stmt.declarations body) ∧
        (returnType = .void ∨ ∃ s ∈ body, s.Returns) ∧ t = .funDec ⟨x, vs, returnType⟩ body) ∧
      (ctx.after [t]).Distinct ∧ ctx' = ctx.after [t] := by
  simp only [Context.newFunction_eq_ok_iff hname]
  constructor
  · rintro ⟨_, ⟨rfl, hfresh⟩, xs, hxs, hfunction⟩
    obtain ⟨body, rfl, hts, honce, hreturns, hafter⟩ :=
      (checkFunction_eq_ok_iff (f := ⟨_, xs.map Prod.fst, returnType⟩) hctx hbody rfl hfresh).1
        hfunction
    have hvs := (Node.toParams_eq_ok_iff hps hparams).1 ⟨xs, hxs, rfl⟩
    exact ⟨⟨_, body, hvs, hts, honce, hreturns, rfl⟩, hafter⟩
  · rintro ⟨⟨vs, body, hvs, hts, honce, hreturns, rfl⟩, hafter⟩
    obtain ⟨xs, hxs, rfl⟩ := (Node.toParams_eq_ok_iff hps hparams).2 hvs
    have hfresh : x ∉ ctx.functions.map Signature.name := by
      have hfs := (Context.distinct_after_funDec_iff hctx).1 hafter.1
      rw [List.map_append, List.map_cons] at hfs
      exact (List.nodup_cons.1 (List.nodup_append.1 hfs).2.1).1
    refine ⟨x, ⟨rfl, hfresh⟩, xs, hxs, ?_⟩
    exact (checkFunction_eq_ok_iff (f := ⟨x, xs.map Prod.fst, returnType⟩) hctx hbody rfl hfresh).2
      ⟨body, rfl, hts, honce, hreturns, hafter⟩

/-- The rule of functions, read from the tree: with a type before the body or without one. -/
theorem ElabStmt.function_iff (type : List Shape) : ElabStmt Φ Γ ρ
      (.branch .funDec (.leaf .id x :: .branch .params ps :: (type ++ [.branch .block ss]))) t ↔
    ∃ returnType, DenotesReturnType type returnType ∧ ∃ vs body, List.Forall₂ ElabParam ps vs ∧
      ElabStmts (Φ ++ [⟨x, vs, returnType⟩]) (vs.reverse ++ Γ) (some returnType) ss body ∧
      DeclaredOnce (vs ++ Stmt.declarations body) ∧
      (returnType = .void ∨ ∃ s ∈ body, s.Returns) ∧ t = .funDec ⟨x, vs, returnType⟩ body := by
  constructor
  · intro h
    generalize hshape : Shape.branch .funDec _ = shape at h
    cases h with
    | function hvs htype hts honce hreturns =>
      simp only [Shape.branch.injEq, List.cons.injEq, Shape.leaf.injEq, true_and] at hshape
      obtain ⟨rfl, rfl, hshape⟩ := hshape
      obtain ⟨rfl, hss⟩ := List.append_inj' hshape rfl
      cases hss
      exact ⟨_, htype, _, _, hvs, hts, honce, hreturns, rfl⟩
    | _ => cases hshape
  · rintro ⟨returnType, htype, vs, body, hvs, hts, honce, hreturns, rfl⟩
    exact .function hvs htype hts honce hreturns

namespace StmtAgrees

variable {n : Node}

/-- A function without a type to return returns nothing. -/
theorem procedure (hps : ∀ p ∈ ps, Laid N .param p) (hb : ∀ n, n.shape ∈ ss → StmtAgrees n)
    (hn : n.shape = .branch .funDec [.leaf .id x, .branch .params ps, .branch .block ss]) :
    StmtAgrees n := by
  obtain ⟨text, span, children, rfl, hchildren⟩ := Node.exists_of_shape_eq_branch hn
  simp only [List.map_eq_cons_iff, List.map_eq_nil_iff] at hchildren
  obtain ⟨name, _, rfl, hname, params, _, rfl, hparams, body, _, rfl, hbody, rfl⟩ := hchildren
  intro ctx hctx t ctx'
  have hdeclaration := checkDeclaration_iff hctx hname hparams hps
    (checkBlock_agrees hbody hb) .void t ctx'
  rw [hn]
  refine Iff.trans ?_ (hdeclaration.trans (and_congr_left fun _ => ?_))
  · simp only [checkStmt, reading_bind_eq_ok]
  · refine Iff.trans ?_ (ElabStmt.function_iff []).symm
    constructor
    · exact fun h => ⟨.void, .none, h⟩
    · rintro ⟨_, ⟨⟩, h⟩
      exact h

theorem function (hps : ∀ p ∈ ps, Laid N .param p) (hs : Laid N .type s)
    (hb : ∀ n, n.shape ∈ ss → StmtAgrees n)
    (hn : n.shape = .branch .funDec [.leaf .id x, .branch .params ps, s, .branch .block ss]) :
    StmtAgrees n := by
  obtain ⟨text, span, children, rfl, hchildren⟩ := Node.exists_of_shape_eq_branch hn
  simp only [List.map_eq_cons_iff, List.map_eq_nil_iff] at hchildren
  obtain ⟨name, _, rfl, hname, params, _, rfl, hparams, type, _, rfl, htype, body, _, rfl, hbody,
    rfl⟩ := hchildren
  intro ctx hctx t ctx'
  have hdeclaration := checkDeclaration_iff hctx hname hparams hps (checkBlock_agrees hbody hb)
  rw [hn]
  simp only [checkStmt, reading_bind_eq_ok, Node.toType_eq_ok_iff hs htype]
  constructor
  · rintro ⟨text, htext, xs, hxs, returnType, ht, h⟩
    obtain ⟨hrule, hafter⟩ := (hdeclaration returnType t ctx').1 ⟨text, htext, xs, hxs, h⟩
    exact ⟨(ElabStmt.function_iff [s]).2 ⟨returnType, .some ht, hrule⟩, hafter⟩
  · rintro ⟨hstmt, hafter⟩
    obtain ⟨returnType, ht, hrule⟩ := (ElabStmt.function_iff [s]).1 hstmt
    cases ht with
    | some ht =>
      obtain ⟨text, htext, xs, hxs, h⟩ := (hdeclaration returnType t ctx').2 ⟨hrule, hafter⟩
      exact ⟨text, htext, xs, hxs, returnType, ht, h⟩

end StmtAgrees

/-! ## Programs -/

/-- The checker agrees with the rules on every statement that a tree of the category is or holds. -/
def LaidAgrees : Category → Shape → Prop
  | .stmt, s => ∀ n : Node, n.shape = s → StmtAgrees n
  | .block, s => ∃ ss, s = .branch .block ss ∧ ∀ n : Node, n.shape ∈ ss → StmtAgrees n
  | .program, s => ∃ ss, s = .branch .program ss ∧ ∀ n : Node, n.shape ∈ ss → StmtAgrees n
  | _, _ => True

/-- The cases of the layout, one for each kind of statement. -/
theorem laidAgrees_of_laid (h : Laid Pattern.number.Describes c s) : LaidAgrees c s := by
  induction h with
  | print h => exact fun n hn => .print h hn
  | varDec h => exact fun n hn => .varDec h hn
  | assign ht h h' => exact fun n hn => .assign ht h h' hn
  | loop h _ _ ih =>
    obtain ⟨ss, rfl, hss⟩ := ih
    exact fun n hn => .loop h hss hn
  | procedure hps _ _ ih =>
    obtain ⟨ss, rfl, hss⟩ := ih
    cases hps with
    | params hps => exact fun n hn => .procedure hps hss hn
  | function hps ht _ _ _ ih =>
    obtain ⟨ss, rfl, hss⟩ := ih
    cases hps with
    | params hps => exact fun n hn => .function hps ht hss hn
  | result => exact fun n hn => .result hn
  | resultOf h => exact fun n hn => .resultOf h hn
  | callStmt hf h => exact fun n hn => .callStmt hf h hn
  | block _ ih => exact ⟨_, rfl, fun n hn => ih _ hn n rfl⟩
  | program _ ih => exact ⟨_, rfl, fun n hn => ih _ hn n rfl⟩
  | _ => trivial

theorem Context.distinct_empty : Context.empty.Distinct :=
  ⟨List.nodup_nil, _, _, rfl, List.nodup_nil⟩

/-- At the end of a program, the names of the outermost block and those of all functions are
distinct. -/
theorem Context.distinct_empty_after_iff {ts : List Stmt} : (Context.empty.after ts).Distinct ↔
    DeclaredOnce (Stmt.declarations ts) ∧
      ((Stmt.functionsAll ts).map Signature.name).Nodup := by
  have hperm := ((Stmt.functionsAll ts).reverse_perm.map Signature.name).nodup_iff
  rw [← hperm, ← List.append_nil (Stmt.functionsAll ts).reverse]
  exact distinct_block_after_iff

theorem analyze_eq_ok {n : Node} {p : Program} :
    analyze n = .ok p ↔ ∃ ctx, checkProgram n .empty = .ok p ctx := by
  rw [analyze]
  cases checkProgram n .empty with
  | ok q ctx => simp
  | error d ctx => simp

/-- On a tree that is laid out as a program, the checker returns what the rules give. -/
theorem analyze_eq_ok_iff_of_laid {n : Node}
    (h : Laid Pattern.number.Describes .program n.shape) {p : Program} :
    analyze n = .ok p ↔ Elaborates n.shape p := by
  obtain ⟨ss, hn, hss⟩ := laidAgrees_of_laid h
  obtain ⟨text, span, children, rfl, rfl⟩ := Node.exists_of_shape_eq_branch hn
  have hstmts := checkStmts_agrees (fun n hn => hss n (List.mem_map_of_mem hn))
    Context.distinct_empty
  rw [analyze_eq_ok, hn, checkProgram, if_pos rfl]
  simp only [bind_eq_ok, pure_eq_ok, hstmts, Context.distinct_empty_after_iff]
  constructor
  · rintro ⟨_, ts, _, ⟨hts, ⟨honce, hfs⟩, rfl⟩, rfl, rfl⟩
    exact .intro hts honce hfs
  · rintro ⟨hts, honce, hfs⟩
    exact ⟨_, _, _, ⟨hts, ⟨honce, hfs⟩, rfl⟩, rfl, rfl⟩

/-- A source that is read has a typed program exactly if its tree has one by the rules, and the rules
give it no other. -/
theorem analyze_eq_ok_iff_elaborates {source : String} {file : Option String} {tokens : List Token}
    {tree : Node} (ht : tokenize source file = .ok tokens) (hp : parse tokens source = .ok tree) :
    (∀ p, analyze tree = .ok p ↔ Elaborates tree.shape p) ∧
      ∀ p q, Elaborates tree.shape p → Elaborates tree.shape q → p = q := by
  have hlaid := laid_of_parse ht hp
  refine ⟨fun p => analyze_eq_ok_iff_of_laid hlaid, fun p q h h' => ?_⟩
  have hok := (analyze_eq_ok_iff_of_laid hlaid).2 h
  have hok' := (analyze_eq_ok_iff_of_laid hlaid).2 h'
  exact Except.ok.inj (hok.symm.trans hok')

/-- A function whose only `return` is in a loop calls itself, two names are declared again in blocks
further in, and there are numbers of both kinds. -/
def shadowingSource : String :=
  "let x = 1 * 2.5e3; fun f(x: str, n: num) -> bool: (while x == \"a\": " ++
    "(return f(x + \"b\", -n);)) while !f(\"a\", x): (let x = [x, 12n]; print(x[0]);)"

def shadowingShape : Shape :=
  .branch .program
    [.branch .varDec [.leaf .id "x",
      .branch .binary [.leaf .num "1", .leaf .op "*", .leaf .num "2.5e3"]],
    .branch .funDec [.leaf .id "f",
      .branch .params [.branch .param [.leaf .id "x", .leaf .type "str"],
        .branch .param [.leaf .id "n", .leaf .type "num"]],
      .leaf .type "bool",
      .branch .block [.branch .whileStmt
        [.branch .binary [.leaf .id "x", .leaf .op "==", .leaf .str "a"],
        .branch .block [.branch .returnStmt [.branch .call [.leaf .id "f",
          .branch .binary [.leaf .id "x", .leaf .op "+", .leaf .str "b"],
          .branch .unary [.leaf .op "-", .leaf .id "n"]]]]]]],
    .branch .whileStmt
      [.branch .unary [.leaf .op "!",
        .branch .call [.leaf .id "f", .leaf .str "a", .leaf .id "x"]],
      .branch .block [.branch .varDec [.leaf .id "x",
          .branch .arrayLit [.leaf .id "x", .leaf .num "12n"]],
        .branch .printStmt [.branch .subscript [.leaf .id "x", .leaf .num "0"]]]]]

def shadowingProgram : Program where
  statements :=
    [.varDec ⟨"x", .num⟩
      (.binary .multiply (.literal (.number 1)) (.literal (.number 2.5e3)) .num),
    .funDec ⟨"f", [⟨"x", .str⟩, ⟨"n", .num⟩], .bool⟩
      [.loop (.binary .equals (.var ⟨"x", .str⟩) (.literal (.str "a")) .bool)
        [.result (some (.call "f" [.binary .add (.var ⟨"x", .str⟩) (.literal (.str "b")) .str,
          .unary .negate (.var ⟨"n", .num⟩) .num] .bool))]],
    .loop (.unary .not (.call "f" [.literal (.str "a"), .var ⟨"x", .num⟩] .bool) .bool)
      [.varDec ⟨"x", .array .num⟩ (.array
        [.var ⟨"x", .num⟩, .literal (.bigInt ⟨12, by decide, by decide⟩)] (.array .num)),
      .print (.subscript (.var ⟨"x", .array .num⟩) (.literal (.number 0)) .num)]]

/-- The derivation by the rules. Each name is found at its nearest declaration, and the numbers are
read digit by digit. -/
theorem elaborates_shadowingShape : Elaborates shadowingShape shadowingProgram := by
  have hdigit : ∀ c, c.isDigit = true → IsDigits [c] := fun c hc =>
    ⟨List.cons_ne_nil _ _, List.forall_mem_singleton.2 hc⟩
  have hrelational : BinaryOp.equals.HasTypes .str .str .bool := .relational rfl
  have hone : DenotesNumber "1".toList (.number 1) :=
    @DenotesNumber.float ['1'] [] [] [] 0 0 (hdigit '1' rfl) .none .none rfl
  have hpower : DenotesNumber "2.5e3".toList (.number 2.5e3) :=
    @DenotesNumber.float ['2'] ['.', '5'] ['5'] ['e', '3'] 3 2 (hdigit '2' rfl)
      (.some (hdigit '5' rfl)) (.unsigned (.inl rfl) (hdigit '3' rfl)) rfl
  have hwide : DenotesNumber "12n".toList (.bigInt ⟨12, by decide, by decide⟩) :=
    @DenotesNumber.wide ['1', '2'] _ ⟨List.cons_ne_nil _ _, List.all_eq_true.1 rfl⟩ rfl
  have hzero : DenotesNumber "0".toList (.number 0) :=
    @DenotesNumber.float ['0'] [] [] [] 0 0 (hdigit '0' rfl) .none .none rfl
  refine .intro (.cons (.varDec ?_) (.cons ?_ (.cons ?_ .nil))) ?_ ?_
  · exact .binary (.number hone) (.number hpower) (.numeric (.inl rfl))
  · refine (ElabStmt.function_iff [.leaf .type "bool"]).2 ⟨.bool, .some (.name .bool), _, _,
      .cons (.intro (.name .str)) (.cons (.intro (.name .num)) .nil), ?_, ?_, ?_, rfl⟩
    · refine .cons (.loop ?_ (.cons (.resultOf (.call List.mem_cons_self
        (.cons ?_ (.cons (.negate ?_) .nil))) ?_) .nil) ?_) .nil
      · exact .binary (.var (v := ⟨"x", .str⟩) rfl) .string hrelational
      · exact .binary (.var (v := ⟨"x", .str⟩) rfl) .string (.additive (.inl rfl))
      · exact .var (v := ⟨"n", .num⟩) rfl
      · decide
      · exact List.nodup_nil
    · exact (by decide : ["x", "n"].Nodup)
    · exact .inr ⟨_, List.mem_cons_self, .loop List.mem_cons_self .result⟩
  · refine .loop (.not (.call List.mem_cons_self (.cons .string (.cons (.var rfl) .nil))))
      (.cons (.varDec ?_) (.cons (.print (t := .num) ?_) .nil)) (List.nodup_singleton "x")
    · exact .array (.cons (.var rfl) (.cons (.number hwide) .nil)) (List.cons_ne_nil _ _) (by simp)
    · exact .subscript (.var (v := ⟨"x", .array .num⟩) rfl) (.number hzero)
  · exact List.nodup_singleton "x"
  · exact List.nodup_singleton "f"

theorem analyze_shadowingSource : ∃ tokens tree, tokenize shadowingSource none = .ok tokens ∧
    parse tokens shadowingSource = .ok tree ∧ analyze tree = .ok shadowingProgram ∧
      ∀ q, Elaborates tree.shape q → q = shadowingProgram := by
  have hread : (tokenize shadowingSource none >>= fun tokens =>
      parse tokens shadowingSource).toOption.any (·.shape = shadowingShape) = true := by
    decide +kernel
  obtain ⟨tree, hread, hshape⟩ := exists_ok_of_any hread
  obtain ⟨tokens, ht, hp⟩ := exceptBind_eq_ok.1 hread
  have hrules : Elaborates tree.shape shadowingProgram := hshape ▸ elaborates_shadowingShape
  obtain ⟨hok, hunique⟩ := analyze_eq_ok_iff_elaborates ht hp
  exact ⟨tokens, tree, ht, hp, (hok _).2 hrules, fun q hq => hunique q _ hq hrules⟩

end Scriptlet
