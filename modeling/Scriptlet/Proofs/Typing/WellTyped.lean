import Scriptlet.Proofs.Typing.Stmt

/-!
Programs that are well typed, with the functions and the variables known at each place. Every
program that the checker returns is, whatever tree it comes from.
-/

namespace Scriptlet

open Outcome CheckM

/-! ## Rules -/

namespace Expr

/-- The expression can stand to the left of an assignment. -/
inductive IsTarget : Expr → Prop where
  | var : IsTarget (.var v)
  | subscript : IsTarget (.subscript base index t)

/-- Expressions, with the functions that are known and the variables that can be seen, the nearest
first. -/
inductive WellTyped (Φ : List Signature) (Γ : List Variable) : Expr → Prop where
  | literal : WellTyped Φ Γ (.literal value)
  | var : Γ.find? (·.name = v.name) = some v → WellTyped Φ Γ (.var v)
  | binary : WellTyped Φ Γ l → WellTyped Φ Γ r → op.HasTypes l.ty r.ty t →
      WellTyped Φ Γ (.binary op l r t)
  | coalesce : WellTyped Φ Γ l → WellTyped Φ Γ r → l.ty = r.ty →
      WellTyped Φ Γ (.binary .coalesce l r l.ty)
  | unary : WellTyped Φ Γ e → e.ty = op.ty → WellTyped Φ Γ (.unary op e op.ty)
  | array : (∀ e ∈ es, WellTyped Φ Γ e) → es ≠ [] → (∀ e ∈ es, e.ty = t) →
      WellTyped Φ Γ (.array es (.array t))
  | subscript : WellTyped Φ Γ b → WellTyped Φ Γ i → b.ty = .array t → i.ty = .num →
      WellTyped Φ Γ (.subscript b i t)
  | call : f ∈ Φ → (∀ e ∈ args, WellTyped Φ Γ e) → args.map Expr.ty = f.params.map Variable.ty →
      WellTyped Φ Γ (.call f.name args f.returnType)

end Expr

namespace Stmt

mutual

/-- Statements, with the type that the function around returns. -/
inductive WellTyped : List Signature → List Variable → Option Ty → Stmt → Prop where
  | print : e.WellTyped Φ Γ → WellTyped Φ Γ ρ (.print e)
  | varDec : e.WellTyped Φ Γ → WellTyped Φ Γ ρ (.varDec ⟨name, e.ty⟩ e)
  | assign : t.IsTarget → t.WellTyped Φ Γ → s.WellTyped Φ Γ → t.ty = s.ty →
      WellTyped Φ Γ ρ (.assign t s)
  | loop : e.WellTyped Φ Γ → e.ty = .bool → AllWellTyped Φ Γ ρ body →
      DeclaredOnce (declarations body) → WellTyped Φ Γ ρ (.loop e body)
  | funDec : AllWellTyped (Φ ++ [f]) (f.params.reverse ++ Γ) (some f.returnType) body →
      DeclaredOnce (f.params ++ declarations body) →
      f.returnType = .void ∨ (∃ s ∈ body, s.Returns) → WellTyped Φ Γ ρ (.funDec f body)
  | result : WellTyped Φ Γ (some .void) (.result none)
  | resultOf : e.WellTyped Φ Γ → e.ty = t → t ≠ .void → WellTyped Φ Γ (some t) (.result (some e))
  | call : (Expr.call name args t).WellTyped Φ Γ → WellTyped Φ Γ ρ (.call name args t)

/-- The statements of a block. What one declares is known to those after it. -/
inductive AllWellTyped : List Signature → List Variable → Option Ty → List Stmt → Prop where
  | nil : AllWellTyped Φ Γ ρ []
  | cons : s.WellTyped Φ Γ ρ →
      AllWellTyped (Φ ++ s.functions) (s.declaration?.toList ++ Γ) ρ ss →
      AllWellTyped Φ Γ ρ (s :: ss)

end

end Stmt

/-- Programs. No two variables of the outermost block have the same name, and no two functions. -/
structure Program.WellTyped (p : Program) : Prop where
  statements : Stmt.AllWellTyped [] [] none p.statements
  declarations : DeclaredOnce (Stmt.declarations p.statements)
  functions : ((Stmt.functionsAll p.statements).map Signature.name).Nodup

/-! ## Expressions of any tree -/

/-- An operation that is typed has the types of its sign, or both sides of `??` have one type. -/
theorem Expr.wellTyped_of_ofBinary {op : Node} {left right e : Expr} (hl : left.WellTyped Φ Γ)
    (hr : right.WellTyped Φ Γ) (h : ofBinary op left right = .ok e) : e.WellTyped Φ Γ := by
  unfold ofBinary at h
  cases hop : BinaryOp.ofSymbol? op.text with
  | none => simp [hop] at h
  | some o =>
    simp only [hop, exceptBind_eq_ok, exceptPure_eq_ok] at h
    obtain ⟨t, ht, rfl⟩ := h
    by_cases ho : o = .coalesce
    · subst ho
      simp only [BinaryOp.resultType, exceptBind_eq_ok, expectType_eq_ok_iff,
        exceptPure_eq_ok] at ht
      obtain ⟨-, hty, rfl⟩ := ht
      exact .coalesce hl hr hty
    · exact .binary hl hr ((BinaryOp.resultType_eq_ok_iff ho).1 ht)

theorem Expr.wellTyped_of_ofUnary {op : Node} {operand e : Expr} (ho : operand.WellTyped Φ Γ)
    (h : ofUnary op operand = .ok e) : e.WellTyped Φ Γ := by
  unfold ofUnary at h
  cases hop : UnaryOp.ofSymbol? op.text with
  | none => simp [hop] at h
  | some o =>
    simp only [hop, exceptBind_eq_ok, exceptPure_eq_ok, expectType_eq_ok_iff] at h
    obtain ⟨-, hty, rfl⟩ := h
    exact .unary ho hty.symm

namespace Context

variable {ctx : Context}

theorem lookup_name {name : String} {position : Position} {v : Variable}
    (h : ctx.lookup name position = .ok v) : v.name = name := by
  have hv := List.find?_some (lookup_eq_ok_iff.1 h)
  simpa using hv

/-- A function that is found is known, and takes as many arguments as there are. -/
theorem callee_spec {n : Node} {count : Nat} {f : Signature} (h : ctx.callee n count = .ok f) :
    f ∈ ctx.known ∧ f.params.length = count := by
  simp only [callee, exceptBind_eq_ok] at h
  obtain ⟨name, -, h⟩ := h
  cases hf : ctx.function? name with
  | none => simp [hf, throw, throwThe, MonadExceptOf.throw] at h
  | some g =>
    simp only [hf] at h
    by_cases hlen : count = g.params.length
    · rw [if_pos hlen] at h
      obtain rfl := exceptPure_eq_ok.1 h
      exact ⟨List.mem_reverse.2 (List.mem_of_find?_eq_some hf), hlen.symm⟩
    · rw [if_neg hlen] at h
      cases h

/-- Whatever expression the checker returns for the tree is well typed. -/
def SoundAt (ctx : Context) (n : Node) : Prop :=
  ∀ ⦃e⦄, checkExpr n ctx = .ok e ctx → e.WellTyped ctx.known ctx.visible

/-- Each tree in a list gives one expression. -/
theorem checkExprs_sound {ns : List Node} (h : ∀ n ∈ ns, ctx.SoundAt n) {es : List Expr}
    (hes : checkExprs ns ctx = .ok es ctx) :
    es.length = ns.length ∧ ∀ e ∈ es, e.WellTyped ctx.known ctx.visible := by
  induction ns generalizing es with
  | nil =>
    obtain ⟨rfl, -⟩ := pure_eq_ok.1 hes
    exact ⟨rfl, fun e he => absurd he List.not_mem_nil⟩
  | cons n ns ih =>
    obtain ⟨hn, hns⟩ := List.forall_mem_cons.1 h
    simp only [checkExprs, checkExpr_bind_eq_ok, checkExprs_bind_eq_ok, pure_eq_ok, and_true] at hes
    obtain ⟨e, he, es, hes, rfl⟩ := hes
    obtain ⟨hlen, hall⟩ := ih hns hes
    exact ⟨congrArg (· + 1) hlen, List.forall_mem_cons.2 ⟨hn he, hall⟩⟩

/-- The arguments of a call have the types of the parameters. -/
theorem checkArgs_sound {ns : List Node} (h : ∀ n ∈ ns, ctx.SoundAt n) {function : String}
    {index : Nat} {params : List Variable} (hlen : params.length = ns.length) {es : List Expr}
    (hes : checkArgs function index params ns ctx = .ok es ctx) :
    (∀ e ∈ es, e.WellTyped ctx.known ctx.visible) ∧ es.map Expr.ty = params.map Variable.ty := by
  induction ns generalizing params index es with
  | nil =>
    obtain rfl := List.eq_nil_of_length_eq_zero hlen
    obtain ⟨rfl, -⟩ := pure_eq_ok.1 hes
    exact ⟨fun e he => absurd he List.not_mem_nil, rfl⟩
  | cons n ns ih =>
    cases params with
    | nil => cases hlen
    | cons param params =>
      obtain ⟨hn, hns⟩ := List.forall_mem_cons.1 h
      simp only [checkArgs, checkExpr_bind_eq_ok] at hes
      obtain ⟨e, he, hes⟩ := hes
      by_cases ht : e.ty = param.ty
      · simp only [if_pos ht, checkArgs_bind_eq_ok, pure_eq_ok, and_true] at hes
        obtain ⟨es, hes, rfl⟩ := hes
        obtain ⟨hall, htys⟩ := ih hns (Nat.succ.inj hlen) hes
        exact ⟨List.forall_mem_cons.2 ⟨hn he, hall⟩, by rw [List.map_cons, ht, htys, List.map_cons]⟩
      · rw [if_neg ht] at hes
        cases hes

theorem checkCall_sound {span : Span} {parts : List Node} (h : ∀ n ∈ parts, ctx.SoundAt n)
    {f : Signature} {es : List Expr} (hcall : checkCall span parts ctx = .ok (f, es) ctx) :
    (Expr.call f.name es f.returnType).WellTyped ctx.known ctx.visible := by
  cases parts with
  | nil => cases hcall
  | cons name args =>
    simp only [checkCall, reading_bind_eq_ok, checkArgs_bind_eq_ok, pure_eq_ok, and_true] at hcall
    obtain ⟨g, hg, es, hes, heq⟩ := hcall
    cases heq
    obtain ⟨hknown, hlen⟩ := callee_spec hg
    obtain ⟨hall, htys⟩ := checkArgs_sound (List.forall_mem_cons.1 h).2 hlen hes
    exact .call hknown hall htys

/-- Every expression that the checker returns is well typed. -/
theorem soundAt (ctx : Context) (n : Node) : ctx.SoundAt n := by
  induction n using Node.induction with
  | step rule text span children ih =>
    intro e h
    cases rule with
    | num =>
      rw [checkExpr] at h
      cases hvalue : Literal.ofNumeral? text with
      | none =>
        rw [hvalue] at h
        cases h
      | some value =>
        rw [hvalue] at h
        obtain ⟨rfl, -⟩ := pure_eq_ok.1 h
        exact .literal
    | str | true | false =>
      obtain ⟨rfl, -⟩ := pure_eq_ok.1 h
      exact .literal
    | id =>
      simp only [checkExpr, reading_bind_eq_ok, pure_eq_ok, and_true] at h
      obtain ⟨v, hv, rfl⟩ := h
      have hfind := lookup_eq_ok_iff.1 hv
      rw [← lookup_name hv] at hfind
      exact .var hfind
    | binary =>
      rcases children with _ | ⟨left, _ | ⟨op, _ | ⟨right, rest⟩⟩⟩
      · cases h
      · obtain ⟨_, -, h⟩ := checkExpr_bind_eq_ok.1 h
        cases h
      · obtain ⟨_, -, h⟩ := checkExpr_bind_eq_ok.1 h
        cases h
      · simp only [checkExpr, checkExpr_bind_eq_ok, reading_eq_ok, and_true] at h
        obtain ⟨l, hl, r, hr, h⟩ := h
        exact Expr.wellTyped_of_ofBinary (ih left (by simp) hl) (ih right (by simp) hr) h
    | unary =>
      rcases children with _ | ⟨op, _ | ⟨operand, rest⟩⟩
      · cases h
      · cases h
      · simp only [checkExpr, checkExpr_bind_eq_ok, reading_eq_ok, and_true] at h
        obtain ⟨o, ho, h⟩ := h
        exact Expr.wellTyped_of_ofUnary (ih operand (by simp) ho) h
    | arrayLit =>
      simp only [checkExpr, checkExprs_bind_eq_ok, reading_eq_ok, and_true] at h
      obtain ⟨es, hes, h⟩ := h
      obtain ⟨hlen, hall⟩ := checkExprs_sound ih hes
      obtain ⟨t, hne, hty, rfl⟩ := (Expr.ofElements_eq_ok_iff hlen).1 h
      exact .array hall hne hty
    | subscript =>
      rcases children with _ | ⟨base, _ | ⟨index, rest⟩⟩
      · cases h
      · cases h
      · simp only [checkExpr, checkExpr_bind_eq_ok, reading_eq_ok, and_true,
          Expr.ofSubscript_eq_ok_iff] at h
        obtain ⟨b, hb, i, hi, t, hty, hnum, rfl⟩ := h
        exact .subscript (ih base (by simp) hb) (ih index (by simp) hi) hty hnum
    | call =>
      simp only [checkExpr, checkCall_bind_eq_ok, pure_eq_ok, and_true] at h
      obtain ⟨⟨f, es⟩, hcall, rfl⟩ := h
      exact checkCall_sound ih hcall
    | _ => cases h

/-- The target of an assignment is a variable or an element. -/
theorem checkTarget_sound {n : Node} {e : Expr} (h : checkTarget n ctx = .ok e ctx) :
    e.IsTarget ∧ e.WellTyped ctx.known ctx.visible := by
  obtain ⟨rule, text, span, children⟩ := n
  by_cases hrule : rule = .id ∨ rule = .subscript
  · rw [checkTarget, if_pos hrule] at h
    refine ⟨?_, ctx.soundAt _ h⟩
    rcases hrule with rfl | rfl
    · simp only [checkExpr, reading_bind_eq_ok, pure_eq_ok, and_true] at h
      obtain ⟨v, -, rfl⟩ := h
      exact .var
    · rcases children with _ | ⟨base, _ | ⟨index, rest⟩⟩
      · cases h
      · cases h
      · simp only [checkExpr, checkExpr_bind_eq_ok, reading_eq_ok, and_true,
          Expr.ofSubscript_eq_ok_iff] at h
        obtain ⟨b, -, i, -, t, -, -, rfl⟩ := h
        exact .subscript
  · rw [checkTarget, if_neg hrule] at h
    cases h

end Context

/-! ## Statements of any tree -/

/-- Whatever statement the checker returns for the tree is well typed, and the context is left as
the statement says. -/
def StmtSound (n : Node) : Prop :=
  ∀ ⦃ctx : Context⦄, ctx.Distinct → ∀ ⦃t ctx'⦄, checkStmt n ctx = .ok t ctx' →
    t.WellTyped ctx.known ctx.visible ctx.returnTypes.head? ∧ (ctx.after [t]).Distinct ∧
      ctx' = ctx.after [t]

/-- The same for the statements of a block. -/
def BlockSound (m : CheckM (List Stmt)) : Prop :=
  ∀ ⦃ctx : Context⦄, ctx.Distinct → ∀ ⦃ts ctx'⦄, m ctx = .ok ts ctx' →
    Stmt.AllWellTyped ctx.known ctx.visible ctx.returnTypes.head? ts ∧ (ctx.after ts).Distinct ∧
      ctx' = ctx.after ts

/-- Each statement is typed in what the ones before it leave. -/
theorem checkStmts_sound {ns : List Node} (h : ∀ n ∈ ns, StmtSound n) :
    BlockSound (checkStmts ns) := by
  induction ns with
  | nil =>
    intro ctx hctx ts ctx' hread
    obtain ⟨rfl, rfl⟩ := pure_eq_ok.1 hread
    rw [Context.after_nil]
    exact ⟨.nil, hctx, rfl⟩
  | cons n ns ih =>
    obtain ⟨hn, hns⟩ := List.forall_mem_cons.1 h
    intro ctx hctx ts ctx' hread
    simp only [checkStmts, bind_eq_ok, pure_eq_ok] at hread
    obtain ⟨t, c, ht, ts, c', hts, rfl, rfl⟩ := hread
    obtain ⟨htyped, hafter, rfl⟩ := hn hctx ht
    -- the rest is typed in what the first statement leaves
    obtain ⟨hall, hdistinct, rfl⟩ := ih hns hafter hts
    rw [Context.after_after] at hdistinct ⊢
    rw [Context.known_after, Context.visible_after hctx] at hall
    exact ⟨.cons htyped hall, hdistinct, rfl⟩

namespace StmtSound

variable {text : String} {span : Span} {children : List Node}

/-- A statement that declares nothing leaves the context as it is. -/
theorem of_reading {ctx ctx' : Context} {t : Stmt} (hctx : ctx.Distinct)
    (hd : t.declaration? = none) (hf : t.functions = [])
    (ht : t.WellTyped ctx.known ctx.visible ctx.returnTypes.head?) (h : ctx' = ctx) :
    t.WellTyped ctx.known ctx.visible ctx.returnTypes.head? ∧ (ctx.after [t]).Distinct ∧
      ctx' = ctx.after [t] := by
  rw [Context.after_eq_self hd hf]
  exact ⟨ht, hctx, h⟩

theorem print : StmtSound ⟨.printStmt, text, span, children⟩ := by
  intro ctx hctx t ctx' h
  cases children with
  | nil => cases h
  | cons argument rest =>
    simp only [checkStmt, checkExpr_bind_eq_ok, pure_eq_ok] at h
    obtain ⟨e, he, rfl, rfl⟩ := h
    exact of_reading hctx rfl rfl (.print (Context.soundAt _ argument he)) rfl

theorem varDec : StmtSound ⟨.varDec, text, span, children⟩ := by
  rintro ⟨scopes, fs, ρs⟩ hctx t ctx' h
  obtain ⟨scope, outer, rfl, hscope⟩ := hctx.innermost
  rcases children with _ | ⟨name, _ | ⟨initializer, rest⟩⟩
  · cases h
  · obtain ⟨_, -, h⟩ := reading_bind_eq_ok.1 h
    cases h
  · simp only [checkStmt, checkVarDec, reading_bind_eq_ok, checkExpr_bind_eq_ok] at h
    simp only [bind_eq_ok, pure_eq_ok] at h
    obtain ⟨x, -, e, he, _, _, hdeclare, rfl, rfl⟩ := h
    obtain ⟨hfresh, rfl⟩ := declare_eq_ok.1 hdeclare
    refine ⟨.varDec (Context.soundAt _ initializer he), ?_, rfl⟩
    exact ⟨hctx.functions, _, _, rfl, DeclaredOnce.cons_iff.2 ⟨hfresh, hscope⟩⟩

theorem assign : StmtSound ⟨.assignStmt, text, span, children⟩ := by
  intro ctx hctx t ctx' h
  rcases children with _ | ⟨target, _ | ⟨source, rest⟩⟩
  · cases h
  · obtain ⟨_, -, h⟩ := (reads_checkTarget target).bind_eq_ok.1 h
    cases h
  · simp only [checkStmt, checkAssign, (reads_checkTarget target).bind_eq_ok, checkExpr_bind_eq_ok,
      reading_bind_eq_ok, pure_eq_ok, expectType_eq_ok_iff] at h
    obtain ⟨e, he, e', he', -, hty, rfl, rfl⟩ := h
    obtain ⟨htarget, htyped⟩ := Context.checkTarget_sound he
    exact of_reading hctx rfl rfl (.assign htarget htyped (Context.soundAt _ source he') hty) rfl

/-- A `return` is typed by the innermost of the types to return. -/
theorem result : StmtSound ⟨.returnStmt, text, span, children⟩ := by
  intro ctx hctx t ctx' h
  rw [checkStmt, checkResult_apply] at h
  cases hρ : ctx.returnTypes with
  | nil =>
    rw [hρ] at h
    cases h
  | cons expected outer =>
    cases children with
    | nil =>
      simp only [hρ, checkValue, pure_bind, reading_bind_eq_ok, pure_eq_ok] at h
      obtain ⟨_, hresult, rfl, rfl⟩ := h
      obtain rfl := expectResult_none_eq_ok_iff.1 hresult
      rw [← hρ]
      refine of_reading hctx rfl rfl ?_ rfl
      rw [hρ]
      exact .result
    | cons value rest =>
      simp only [hρ, checkValue, bind_assoc, pure_bind, checkExpr_bind_eq_ok, reading_bind_eq_ok,
        pure_eq_ok] at h
      obtain ⟨e, he, _, hresult, rfl, rfl⟩ := h
      obtain ⟨hty, hne⟩ := expectResult_some_eq_ok_iff.1 hresult
      rw [← hρ]
      refine of_reading hctx rfl rfl ?_ rfl
      rw [hρ]
      exact .resultOf (Context.soundAt _ value he) hty hne

theorem callStmt : StmtSound ⟨.callStmt, text, span, children⟩ := by
  intro ctx hctx t ctx' h
  cases children with
  | nil => cases h
  | cons call rest =>
    obtain ⟨rule, callText, callSpan, parts⟩ := call
    cases rule with
    | call =>
      simp only [checkStmt, checkCall_bind_eq_ok, pure_eq_ok] at h
      obtain ⟨⟨f, es⟩, hcall, rfl, rfl⟩ := h
      have hsound := Context.checkCall_sound (fun n _ => Context.soundAt _ n) hcall
      exact of_reading hctx rfl rfl (.call hsound) rfl
    | _ => cases h

/-- The body of a loop is typed with the names outside it, and the names that it declares stay in
it. -/
theorem loop (hblock : ∀ n ∈ children, BlockSound (checkBlock n)) :
    StmtSound ⟨.whileStmt, text, span, children⟩ := by
  intro ctx hctx t ctx' h
  rcases children with _ | ⟨test, _ | ⟨body, rest⟩⟩
  · cases h
  · obtain ⟨_, -, h⟩ := (reads_checkCondition test).bind_eq_ok.1 h
    cases h
  · simp only [checkStmt, checkCondition, bind_assoc, pure_bind, checkExpr_bind_eq_ok,
      reading_bind_eq_ok, expectType_eq_ok_iff] at h
    simp only [bind_eq_ok, inScope_eq_ok, pure_eq_ok] at h
    obtain ⟨e, he, -, hty, ts, _, ⟨_, hread, rfl⟩, rfl, rfl⟩ := h
    obtain ⟨hts, hdistinct, rfl⟩ := hblock body (by simp) hctx.block hread
    obtain ⟨honce, hfs⟩ := Context.distinct_block_after_iff.1 hdistinct
    refine ⟨.loop (ctx.soundAt test he) hty.symm hts honce, ?_, ?_⟩
    · exact (Context.distinct_after_iff hctx rfl).2 hfs
    · exact (Context.after_eq (t := .loop _ ts) rfl).symm

end StmtSound

/-! ## Functions -/

/-- The body of a function, with its parameters in the same block. -/
theorem checkBody_sound {ctx : Context} (hctx : ctx.Distinct) {m : CheckM (List Stmt)}
    (hm : BlockSound m) {f : Signature} {xs : List (Variable × Position)}
    (hxs : xs.map Prod.fst = f.params) (hf : f.name ∉ ctx.functions.map Signature.name)
    {body : List Stmt} {ctx' : Context}
    (h : (inScope do declareAll xs; inFunction f.returnType m)
      { ctx with functions := f :: ctx.functions } = .ok body ctx') :
    Stmt.AllWellTyped (ctx.known ++ [f]) (f.params.reverse ++ ctx.visible) (some f.returnType)
        body ∧
      DeclaredOnce (f.params ++ Stmt.declarations body) ∧
      (ctx.after [.funDec f body]).Distinct ∧ ctx' = ctx.after [.funDec f body] := by
  obtain ⟨hparams, _, hread, rfl⟩ := (inFunctionScope_eq_ok hxs).1 h
  obtain ⟨hbody, hblock, rfl⟩ := hm (hctx.inside hf hparams) hread
  rw [Context.known_inside, Context.visible_inside] at hbody
  obtain ⟨honce, hfs'⟩ := Context.distinct_block_after_iff.1 hblock
  rw [List.reverse_reverse] at honce
  refine ⟨hbody, honce, (Context.distinct_after_funDec_iff hctx).2 hfs', ?_⟩
  rw [Context.after_funDec]
  rfl

/-- A function is typed with its own name known. -/
theorem checkFunction_sound {ctx : Context} (hctx : ctx.Distinct) {m : CheckM (List Stmt)}
    (hm : BlockSound m) {name : String} {position : Position} {xs : List (Variable × Position)}
    {returnType : Ty} (hname : name ∉ ctx.functions.map Signature.name) {t : Stmt} {ctx' : Context}
    (h : checkFunction name position xs returnType m ctx = .ok t ctx') :
    t.WellTyped ctx.known ctx.visible ctx.returnTypes.head? ∧ (ctx.after [t]).Distinct ∧
      ctx' = ctx.after [t] := by
  rw [checkFunction, addFunction_bind_apply, bind_eq_ok] at h
  obtain ⟨body, c, hbody, hend⟩ := h
  obtain ⟨hts, honce, hdistinct, rfl⟩ :=
    checkBody_sound (f := ⟨name, xs.map Prod.fst, returnType⟩) hctx hm rfl hname hbody
  split at hend
  · next hreturns =>
    obtain ⟨rfl, rfl⟩ := pure_eq_ok.1 hend
    rw [Stmt.anyReturns_iff] at hreturns
    exact ⟨.funDec hts honce hreturns, hdistinct, rfl⟩
  · cases hend

theorem Context.newFunction_spec {ctx : Context} {n : Node} {name : String}
    (h : ctx.newFunction n = .ok name) : name ∉ ctx.functions.map Signature.name := by
  simp only [newFunction, exceptBind_eq_ok] at h
  obtain ⟨text, -, h⟩ := h
  cases hf : ctx.function? text with
  | some f => simp [hf, throw, throwThe, MonadExceptOf.throw] at h
  | none =>
    simp only [hf, exceptPure_eq_ok] at h
    subst h
    exact function?_eq_none_iff.1 hf

theorem StmtSound.funDec {text : String} {span : Span} {children : List Node}
    (hblock : ∀ n ∈ children, BlockSound (checkBlock n)) :
    StmtSound ⟨.funDec, text, span, children⟩ := by
  intro ctx hctx t ctx' h
  rcases children with _ | ⟨name, _ | ⟨params, _ | ⟨first, _ | ⟨second, _ | ⟨third, rest⟩⟩⟩⟩⟩
  · cases h
  · obtain ⟨_, -, h⟩ := reading_bind_eq_ok.1 h
    cases h
  · simp only [checkStmt, reading_bind_eq_ok] at h
    obtain ⟨_, -, _, -, h⟩ := h
    cases h
  · simp only [checkStmt, reading_bind_eq_ok] at h
    obtain ⟨x, hname, xs, -, h⟩ := h
    have hfresh := Context.newFunction_spec hname
    exact checkFunction_sound hctx (hblock first (by simp)) hfresh h
  · simp only [checkStmt, reading_bind_eq_ok] at h
    obtain ⟨x, hname, xs, -, type, -, h⟩ := h
    have hfresh := Context.newFunction_spec hname
    exact checkFunction_sound hctx (hblock second (by simp)) hfresh h
  · simp only [checkStmt, reading_bind_eq_ok] at h
    obtain ⟨_, -, _, -, h⟩ := h
    cases h

/-! ## Programs of any tree -/

/-- The checker is sound on every tree, read as a statement and read as a block. -/
theorem checkStmt_sound (n : Node) : StmtSound n ∧ BlockSound (checkBlock n) := by
  induction n using Node.induction with
  | step rule text span children ih =>
    constructor
    · cases rule with
      | printStmt => exact .print
      | varDec => exact .varDec
      | assignStmt => exact .assign
      | whileStmt => exact .loop fun n hn => (ih n hn).2
      | funDec => exact .funDec fun n hn => (ih n hn).2
      | returnStmt => exact .result
      | callStmt => exact .callStmt
      | _ =>
        intro ctx hctx t ctx' h
        cases h
    · cases rule with
      | block => exact checkStmts_sound fun n hn => (ih n hn).1
      | _ =>
        intro ctx hctx ts ctx' h
        cases h

/-- Every program that the checker returns is well typed. -/
theorem wellTyped_of_analyze {n : Node} {p : Program} (h : analyze n = .ok p) : p.WellTyped := by
  obtain ⟨ctx, h⟩ := analyze_eq_ok.1 h
  rw [checkProgram] at h
  split at h
  · simp only [bind_eq_ok, pure_eq_ok] at h
    obtain ⟨ts, _, hts, rfl, -⟩ := h
    obtain ⟨hall, hdistinct, -⟩ :=
      checkStmts_sound (fun n _ => (checkStmt_sound n).1) Context.distinct_empty hts
    obtain ⟨honce, hfs⟩ := Context.distinct_empty_after_iff.1 hdistinct
    exact ⟨hall, honce, hfs⟩
  · cases h

/-- The program that a source is read as. -/
def Program.ReadFrom (p : Program) (source : String) : Prop :=
  ∃ tokens tree, tokenize source none = .ok tokens ∧ parse tokens source = .ok tree ∧
    analyze tree = .ok p

/-- A source that gives a program with a decidable property gives such a program. -/
theorem Program.exists_readFrom (source : String) {P : Program → Prop} [DecidablePred P]
    (h : (tokenize source none >>= fun tokens =>
      parse tokens source >>= analyze).toOption.any (P ·) = true) :
    ∃ p : Program, p.ReadFrom source ∧ P p := by
  obtain ⟨p, hread, hp⟩ := exists_ok_of_any h
  obtain ⟨tokens, ht, hread⟩ := exceptBind_eq_ok.1 hread
  obtain ⟨tree, htree, ha⟩ := exceptBind_eq_ok.1 hread
  exact ⟨p, ⟨tokens, tree, ht, htree, ha⟩, hp⟩

end Scriptlet
