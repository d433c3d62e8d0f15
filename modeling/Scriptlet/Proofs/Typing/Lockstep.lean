import Scriptlet.Proofs.SyntaxTree.Layout
import Scriptlet.Proofs.SyntaxTree.Lockstep
import Scriptlet.Typing.Stmt

/-!
Two trees that are typed side by side. If they match and are laid out as programs, typing comes to
the same program in both or to matching faults. The scopes that are open are never none, so a name
can always be declared: no fault is one of a malformed tree.
-/

namespace Scriptlet

variable {S : Position → Position → Prop} {position position' : Position}

/-! ## Types and operators -/

theorem agree_expectType (h : S position position') (kind : Mismatch) (expected received : Ty) :
    Agree S Eq (expectType kind expected received position)
      (expectType kind expected received position') :=
  .ite (.ok rfl) (.error ⟨rfl, h, rfl⟩)

theorem BinaryOp.agree_resultType (h : S position position') (op : BinaryOp) (left right : Ty) :
    Agree S Eq (op.resultType left right position) (op.resultType left right position') := by
  cases op with
  | equals | notEquals | less | lessEquals | greater | greaterEquals | add | subtract | coalesce =>
    exact (agree_expectType h _ _ _).bind_eq fun _ => .pure rfl
  | multiply | divide | modulo | power =>
    refine (agree_expectType h _ _ _).bind_eq fun _ => ?_
    exact (agree_expectType h _ _ _).bind_eq fun _ => .pure rfl

/-- Types are read alike from trees that differ in their positions only. -/
theorem agree_toType {s : Shape} (h : Laid N .type s) {n n' : Node} (hn : s.Pair S n n') :
    Agree S Eq n.toType n'.toType := by
  generalize hc : Category.type = c at h
  induction h generalizing n n' with
  | @typeName name =>
    obtain ⟨hstart⟩ := hn.leaf
    rw [Node.toType, Node.toType]
    split
    · exact .ok rfl
    · exact .error ⟨rfl, hstart, rfl⟩
  | arrayType _ ih =>
    obtain ⟨-, hparts⟩ := hn.branch
    obtain _ | ⟨ht, _ | _⟩ := hparts
    rw [Node.toType, Node.toType]
    exact (ih ht hc).bind_eq fun _ => .pure rfl
  | _ => cases hc

theorem agree_identifier {name : String} {n n' : Node} (h : (Shape.leaf .id name).Pair S n n') :
    Agree S Eq n.identifier n'.identifier := by
  obtain ⟨-⟩ := h.leaf
  exact .ok rfl

/-! ## Parts of expressions -/

namespace Expr

theorem agree_ofBinary {op : BinaryOp} {n n' : Node} (h : (Shape.leaf .op op.symbol).Pair S n n')
    (left right : Expr) : Agree S Eq (ofBinary n left right) (ofBinary n' left right) := by
  obtain ⟨hstart⟩ := h.leaf
  rw [ofBinary, ofBinary, BinaryOp.ofSymbol?_symbol]
  exact (op.agree_resultType hstart _ _).bind_eq fun _ => .pure rfl

theorem agree_ofUnary {op : UnaryOp} {n n' : Node} (h : (Shape.leaf .op op.symbol).Pair S n n')
    (operand : Expr) : Agree S Eq (ofUnary n operand) (ofUnary n' operand) := by
  obtain ⟨hstart⟩ := h.leaf
  rw [ofUnary, ofUnary, UnaryOp.ofSymbol?_symbol]
  exact (agree_expectType hstart _ _ _).bind_eq fun _ => .pure rfl

theorem agree_expectElements {ss : List Shape} {ns ns' : List Node} (h : Shape.Pairs S ss ns ns')
    (expected : Ty) (es : List Expr) :
    Agree S Eq (expectElements expected es ns) (expectElements expected es ns') := by
  induction h generalizing es with
  | nil =>
    cases es with
    | nil => exact .ok rfl
    | cons e es => exact .ok rfl
  | cons hn _ ih =>
    cases es with
    | nil => exact .ok rfl
    | cons e es => exact .ite (ih es) (.error ⟨rfl, hn.start, rfl⟩)

theorem agree_ofElements {span span' : Span} (hstart : S span.start span'.start) {ss : List Shape}
    {ns ns' : List Node} (h : Shape.Pairs S ss ns ns') (es : List Expr) :
    Agree S Eq (ofElements span es ns) (ofElements span' es ns') := by
  have htail : ∃ ts, Shape.Pairs S ts ns.tail ns'.tail := by
    cases h with
    | nil => exact ⟨_, .nil⟩
    | cons _ hns => exact ⟨_, hns⟩
  obtain ⟨ts, htail⟩ := htail
  cases es with
  | nil => exact .error ⟨rfl, hstart, rfl⟩
  | cons first rest => exact (agree_expectElements htail _ rest).bind_eq fun _ => .pure rfl

theorem agree_ofSubscript {s t : Shape} {b b' i i' : Node} (hb : s.Pair S b b')
    (hi : t.Pair S i i') (base index : Expr) :
    Agree S Eq (ofSubscript b i base index) (ofSubscript b' i' base index) := by
  rw [ofSubscript, ofSubscript]
  split
  · exact .error ⟨rfl, hb.start, rfl⟩
  · exact .ite (.ok rfl) (.error ⟨rfl, hi.start, rfl⟩)

end Expr

/-! ## Steps of typing -/

/-- The same context in both runs, with so many scopes open around the innermost. -/
def Context.Same (depth : Nat) (ctx ctx' : Context) : Prop :=
  ctx = ctx' ∧ ctx.scopes.length = depth + 1

/-- Typing gives related results from the same context, and leaves the same context. -/
abbrev CheckM.Matches {α α' : Type} (S : Position → Position → Prop) (depth : Nat)
    (R : α → α' → Prop) (m : CheckM α) (m' : CheckM α') : Prop :=
  Lockstep S (Context.Same depth) R m m'

/-- The same variables, declared at corresponding places. -/
abbrev ParamsMatch (S : Position → Position → Prop) (ps ps' : List (Variable × Position)) : Prop :=
  List.Forall₂ (fun p p' => p.1 = p'.1 ∧ S p.2 p'.2) ps ps'

namespace CheckM

variable {α α' : Type} {R : α → α' → Prop} {depth : Nat}

/-- Steps that only read match if they agree on every context. -/
theorem matches_reading {f : Context → Except Diagnostic α} {f' : Context → Except Diagnostic α'}
    (h : ∀ ctx, Agree S R (f ctx) (f' ctx)) :
    CheckM.Matches S depth R (reading f) (reading f') := by
  intro ctx ctx' hctx
  obtain ⟨rfl, -⟩ := id hctx
  have hf := h ctx
  unfold reading
  revert hf
  generalize f ctx = x, f' ctx = x'
  intro hf
  cases hf with
  | ok ha => exact .ok ha hctx
  | error hd => exact .error hd

theorem matches_get : CheckM.Matches S depth Eq (get : CheckM Context) get :=
  fun _ _ hctx => .ok hctx.1 hctx

/-- A name is refused in both or in neither. -/
theorem matches_declare (h : S position position') (v : Variable) :
    CheckM.Matches S depth Eq (declare v position) (declare v position') := by
  intro ctx ctx' hctx
  obtain ⟨rfl, hlength⟩ := hctx
  obtain ⟨scopes, fs, ts⟩ := ctx
  cases scopes with
  | nil => cases hlength
  | cons s outer =>
    simp only [declare, Scope.declare]
    cases s.find? v.name with
    | none => exact .ok rfl ⟨rfl, hlength⟩
    | some w => exact .error ⟨rfl, h, rfl⟩

theorem matches_declareAll {ps ps' : List (Variable × Position)}
    (h : ParamsMatch S ps ps') :
    CheckM.Matches S depth Eq (declareAll ps) (declareAll ps') := by
  induction h with
  | nil => exact .pure rfl
  | @cons p p' _ _ hp _ ih =>
    obtain ⟨v, position⟩ := p
    obtain ⟨v', position'⟩ := p'
    obtain ⟨rfl, hposition⟩ := hp
    exact (matches_declare hposition v).bind_eq fun _ => ih

theorem matches_addFunction (f : Signature) :
    CheckM.Matches S depth Eq (addFunction f) (addFunction f) := by
  intro ctx ctx' hctx
  obtain ⟨rfl, hlength⟩ := hctx
  exact .ok rfl ⟨rfl, hlength⟩

/-- Typing between two changes of the context, one on entry and one at the end. -/
theorem matches_andThen {inner : Nat} {m : CheckM α} {m' : CheckM α'}
    {enter leave : Context → Context} (h : CheckM.Matches S inner R m m')
    (henter : ∀ ctx : Context, ctx.scopes.length = depth + 1 →
      (enter ctx).scopes.length = inner + 1)
    (hleave : ∀ ctx : Context, ctx.scopes.length = inner + 1 →
      (leave ctx).scopes.length = depth + 1) :
    CheckM.Matches S depth R (modify enter >>= fun _ => m.andThen leave)
      (modify enter >>= fun _ => m'.andThen leave) := by
  intro ctx ctx' hctx
  obtain ⟨rfl, hlength⟩ := hctx
  change ResultsAgree S (Context.Same depth) R (m.andThen leave (enter ctx))
    (m'.andThen leave (enter ctx))
  rcases (h ⟨rfl, henter ctx hlength⟩).exists_eq with
    ⟨a, c, a', c', hm, hm', ha, rfl, hc⟩ | ⟨d, c, d', c', hm, hm', hd⟩
  · rw [andThen, andThen, hm, hm']
    exact .ok ha ⟨rfl, hleave c hc⟩
  · rw [andThen, andThen, hm, hm']
    exact .error hd

/-- Inside a block there is one scope more, in both runs. -/
theorem matches_inScope {m : CheckM α} {m' : CheckM α'}
    (h : CheckM.Matches S (depth + 1) R m m') :
    CheckM.Matches S depth R (inScope m) (inScope m') := by
  refine matches_andThen h ?_ ?_
  · intro ctx hlength
    rw [List.length_cons, hlength]
  · intro ctx hlength
    rw [List.length_tail, hlength]
    rfl

theorem matches_inFunction {m : CheckM α} {m' : CheckM α'} (h : CheckM.Matches S depth R m m')
    (t : Ty) : CheckM.Matches S depth R (inFunction t m) (inFunction t m') :=
  matches_andThen h (fun _ hlength => hlength) (fun _ hlength => hlength)

end CheckM

open CheckM

/-- Functions match if their parameters and their bodies do. -/
theorem matches_checkFunction {depth : Nat} (h : S position position') (name : String)
    {ps ps' : List (Variable × Position)}
    (hps : ParamsMatch S ps ps') (returnType : Ty)
    {body body' : CheckM (List Stmt)} (hbody : CheckM.Matches S (depth + 1) Eq body body') :
    CheckM.Matches S depth Eq (checkFunction name position ps returnType body)
      (checkFunction name position' ps' returnType body') := by
  have hparams : ps.map (·.1) = ps'.map (·.1) := by
    induction hps with
    | nil => rfl
    | cons hp _ ih => rw [List.map_cons, List.map_cons, hp.1, ih]
  rw [checkFunction, checkFunction, hparams]
  refine (matches_addFunction _).bind_eq fun _ => ?_
  refine Lockstep.bind_eq (matches_inScope ?_) fun body => ?_
  · exact (matches_declareAll hps).bind_eq fun _ => matches_inFunction hbody returnType
  · exact .ite (.pure rfl) (.throw ⟨rfl, h, rfl⟩)

/-! ## Expressions -/

theorem Context.agree_lookup (h : S position position') (ctx : Context) (name : String) :
    Agree S Eq (ctx.lookup name position) (ctx.lookup name position') := by
  rw [lookup, lookup]
  split
  · exact .ok rfl
  · exact .error ⟨rfl, h, rfl⟩

/-- A call finds the same function, or fails for the same reason. -/
theorem Context.agree_callee {name : String} {n n' : Node} (h : (Shape.leaf .id name).Pair S n n')
    (ctx : Context) (count : Nat) : Agree S Eq (ctx.callee n count) (ctx.callee n' count) := by
  refine (agree_identifier h).bind_eq fun text => ?_
  split
  · exact .error ⟨rfl, h.start, rfl⟩
  · exact .ite (.pure rfl) (.error ⟨rfl, h.start, rfl⟩)

/-- Trees of the shape give the same expression, or faults that match. -/
def ExprsMatch (S : Position → Position → Prop) (s : Shape) : Prop :=
  ∀ ⦃depth n n'⦄, s.Pair S n n' → CheckM.Matches S depth Eq (checkExpr n) (checkExpr n')

section

variable {depth : Nat} {ss : List Shape} (hss : ∀ s ∈ ss, ExprsMatch S s) {ns ns' : List Node}

include hss

/-- The elements of two lists match one by one. -/
theorem matches_checkExprs (h : Shape.Pairs S ss ns ns') :
    CheckM.Matches S depth Eq (checkExprs ns) (checkExprs ns') := by
  induction h with
  | nil => exact .pure rfl
  | cons hn _ ih =>
    obtain ⟨hs, hss⟩ := List.forall_mem_cons.1 hss
    rw [checkExprs, checkExprs]
    exact (hs hn).bind_eq fun _ => (ih hss).bind_eq fun _ => .pure rfl

theorem matches_checkArgs (h : Shape.Pairs S ss ns ns') (function : String) (index : Nat)
    (params : List Variable) :
    CheckM.Matches S depth Eq (checkArgs function index params ns)
      (checkArgs function index params ns') := by
  induction h generalizing index params with
  | nil => cases params <;> exact .pure rfl
  | cons hn _ ih =>
    obtain ⟨hs, hss⟩ := List.forall_mem_cons.1 hss
    cases params with
    | nil => exact .pure rfl
    | cons param params =>
      rw [checkArgs, checkArgs]
      refine (hs hn).bind_eq fun arg => .ite ?_ (.throw ⟨rfl, hn.start, rfl⟩)
      exact (ih hss _ _).bind_eq fun _ => .pure rfl

/-- The arguments of a call match, and so does what is said of those that do not fit. -/
theorem matches_checkCall {name : String} (h : Shape.Pairs S (.leaf .id name :: ss) ns ns')
    (span span' : Span) : CheckM.Matches S depth Eq (checkCall span ns) (checkCall span' ns') := by
  obtain _ | ⟨hname, hargs⟩ := h
  rw [checkCall, checkCall, hargs.length_eq]
  refine (matches_reading fun ctx => ctx.agree_callee hname _).bind_eq fun f => ?_
  exact (matches_checkArgs hss hargs _ _ _).bind_eq fun _ => .pure rfl

end

namespace ExprsMatch

/-- Names and literals depend on the text of the leaf alone. -/
theorem atom {rule : Rule} (hrule : rule.isAtom = true) (text : String) :
    ExprsMatch S (.leaf rule text) := by
  intro depth n n' h
  obtain ⟨hstart⟩ := h.leaf
  cases rule with
  | num =>
    rw [checkExpr, checkExpr]
    split
    · exact .pure rfl
    · exact .throw ⟨rfl, hstart, rfl⟩
  | str | true | false => exact .pure rfl
  | id =>
    rw [checkExpr, checkExpr]
    exact (matches_reading fun ctx => ctx.agree_lookup hstart text).bind_eq fun _ => .pure rfl
  | _ => cases hrule

/-- Expressions of any layout. -/
theorem of_laid {s : Shape} (h : Laid N .expr s) : ExprsMatch S s := by
  generalize hc : Category.expr = c at h
  induction h with
  | atom hrule => exact atom hrule _
  | binary _ _ _ ihl ihr =>
    intro depth n n' hn
    obtain ⟨-, hparts⟩ := hn.branch
    obtain _ | ⟨hl, _ | ⟨ho, _ | ⟨hr, _ | _⟩⟩⟩ := hparts
    rw [checkExpr, checkExpr]
    refine (ihl hc hl).bind_eq fun left => (ihr hc hr).bind_eq fun right => ?_
    exact matches_reading fun _ => Expr.agree_ofBinary ho left right
  | unary _ ih =>
    intro depth n n' hn
    obtain ⟨-, hparts⟩ := hn.branch
    obtain _ | ⟨ho, _ | ⟨he, _ | _⟩⟩ := hparts
    rw [checkExpr, checkExpr]
    refine (ih hc he).bind_eq fun operand => ?_
    exact matches_reading fun _ => Expr.agree_ofUnary ho operand
  | array _ ih =>
    intro depth n n' hn
    obtain ⟨hstart, hparts⟩ := hn.branch
    rw [checkExpr, checkExpr]
    refine (matches_checkExprs (fun e he => ih e he hc) hparts).bind_eq fun es => ?_
    exact matches_reading fun _ => Expr.agree_ofElements hstart hparts es
  | subscript _ _ ihb ihi =>
    intro depth n n' hn
    obtain ⟨-, hparts⟩ := hn.branch
    obtain _ | ⟨hb, _ | ⟨hi, _ | _⟩⟩ := hparts
    rw [checkExpr, checkExpr]
    refine (ihb hc hb).bind_eq fun base => (ihi hc hi).bind_eq fun index => ?_
    exact matches_reading fun _ => Expr.agree_ofSubscript hb hi base index
  | call _ ih =>
    intro depth n n' hn
    obtain ⟨-, hparts⟩ := hn.branch
    rw [checkExpr, checkExpr]
    refine (matches_checkCall (fun e he => ih e he hc) hparts _ _).bind_eq fun _ => .pure rfl
  | _ => cases hc

end ExprsMatch

/-! ## Parts of statements -/

theorem agree_toParam {s : Shape} (h : Laid N .param s) {n n' : Node} (hn : s.Pair S n n') :
    Agree S (fun p p' => p.1 = p'.1 ∧ S p.2 p'.2) n.toParam n'.toParam := by
  cases h with
  | param ht =>
    obtain ⟨-, hparts⟩ := hn.branch
    obtain _ | ⟨hname, _ | ⟨htype, _ | _⟩⟩ := hparts
    refine (agree_identifier hname).bind_eq fun text => ?_
    exact (agree_toType ht htype).bind_eq fun t => .pure ⟨rfl, hname.start⟩

theorem agree_mapM_toParam {ss : List Shape} (hss : ∀ s ∈ ss, Laid N .param s) {ns ns' : List Node}
    (h : Shape.Pairs S ss ns ns') :
    Agree S (ParamsMatch S) (ns.mapM Node.toParam) (ns'.mapM Node.toParam) := by
  induction h with
  | nil => exact .pure .nil
  | cons hn _ ih =>
    obtain ⟨hs, hss⟩ := List.forall_mem_cons.1 hss
    rw [List.mapM_cons, List.mapM_cons]
    refine (agree_toParam hs hn).bind fun p p' hp => ?_
    exact (ih hss).bind fun _ _ hps => .pure (.cons hp hps)

/-- The parameters are the same, each at its own position. -/
theorem agree_toParams {s : Shape} (h : Laid N .params s) {n n' : Node} (hn : s.Pair S n n') :
    Agree S (ParamsMatch S) n.toParams n'.toParams := by
  cases h with
  | params hps =>
    obtain ⟨-, hparts⟩ := hn.branch
    exact agree_mapM_toParam hps hparts

theorem agree_expectResult (h : S position position') (expected : Ty) (value : Option Expr) :
    Agree S Eq (expectResult expected value position) (expectResult expected value position') := by
  cases value with
  | none => exact .ite (.ok rfl) (.error ⟨rfl, h, rfl⟩)
  | some e => exact .ite (.error ⟨rfl, h, rfl⟩) (agree_expectType h _ _ _)

section

variable {depth : Nat} {span span' : Span}

/-- What can be assigned to is seen from the rule of the tree. -/
theorem matches_checkTarget {s : Shape} (hs : s.rule = .id ∨ s.rule = .subscript)
    (h : Laid N .expr s) {n n' : Node} (hn : s.Pair S n n') :
    CheckM.Matches S depth Eq (checkTarget n) (checkTarget n') := by
  rw [← hn.shape, Node.shape_rule] at hs
  rw [checkTarget, checkTarget, if_pos hs, if_pos (hn.matching.rule ▸ hs)]
  exact ExprsMatch.of_laid h hn

theorem matches_checkResult (hstart : S span.start span'.start) {ss : List Shape}
    (hss : ∀ s ∈ ss, Laid N .expr s) {ns ns' : List Node} (h : Shape.Pairs S ss ns ns') :
    CheckM.Matches S depth Eq (checkResult span ns) (checkResult span' ns') := by
  have hvalue : CheckM.Matches S depth Eq (checkValue ns) (checkValue ns') := by
    cases h with
    | nil => exact .pure rfl
    | cons hn _ =>
      exact (ExprsMatch.of_laid (hss _ List.mem_cons_self) hn).bind_eq fun _ => .pure rfl
  refine matches_get.bind_eq fun ctx => ?_
  cases ctx.returnTypes with
  | nil => exact .throw ⟨rfl, hstart, rfl⟩
  | cons expected outer =>
    refine hvalue.bind_eq fun value => ?_
    exact (matches_reading fun _ => agree_expectResult hstart expected value).bind_eq fun _ =>
      .pure rfl

/-- A declaration is refused at the position of its name. -/
theorem matches_checkVarDec {name : String} {s : Shape} (h : Laid N .expr s) {ns ns' : List Node}
    (hns : Shape.Pairs S [.leaf .id name, s] ns ns') :
    CheckM.Matches S depth Eq (checkVarDec span ns) (checkVarDec span' ns') := by
  obtain _ | ⟨hname, _ | ⟨he, _ | _⟩⟩ := hns
  refine (matches_reading fun _ => agree_identifier hname).bind_eq fun text => ?_
  refine (ExprsMatch.of_laid h he).bind_eq fun e => ?_
  exact (matches_declare hname.start _).bind_eq fun _ => .pure rfl

theorem matches_checkAssign {s t : Shape} (hs : s.rule = .id ∨ s.rule = .subscript)
    (h : Laid N .expr s) (ht : Laid N .expr t) {ns ns' : List Node}
    (hns : Shape.Pairs S [s, t] ns ns') :
    CheckM.Matches S depth Eq (checkAssign span ns) (checkAssign span' ns') := by
  obtain _ | ⟨htarget, _ | ⟨hsource, _ | _⟩⟩ := hns
  refine (matches_checkTarget hs h htarget).bind_eq fun target => ?_
  refine (ExprsMatch.of_laid ht hsource).bind_eq fun source => ?_
  exact (matches_reading fun _ => agree_expectType hsource.start _ _ _).bind_eq fun _ => .pure rfl

theorem matches_checkCondition {s : Shape} (h : Laid N .expr s) {n n' : Node}
    (hn : s.Pair S n n') : CheckM.Matches S depth Eq (checkCondition n) (checkCondition n') := by
  refine (ExprsMatch.of_laid h hn).bind_eq fun e => ?_
  exact (matches_reading fun _ => agree_expectType hn.start _ _ _).bind_eq fun _ => .pure rfl

theorem Context.agree_newFunction {name : String} {n n' : Node}
    (hn : (Shape.leaf .id name).Pair S n n') (ctx : Context) :
    Agree S Eq (ctx.newFunction n) (ctx.newFunction n') := by
  refine (agree_identifier hn).bind_eq fun text => ?_
  split
  · exact .error ⟨rfl, hn.start, rfl⟩
  · exact .pure rfl

end

/-! ## Statements -/

/-- Statements of the shape are typed alike, however many scopes are open. -/
def StmtsMatch (S : Position → Position → Prop) (s : Shape) : Prop :=
  ∀ ⦃depth n n'⦄, s.Pair S n n' → CheckM.Matches S depth Eq (checkStmt n) (checkStmt n')

/-- Statements in a row match if each does, as they start from the same context. -/
theorem matches_checkStmts {ss : List Shape} (hss : ∀ s ∈ ss, StmtsMatch S s) {ns ns' : List Node}
    (h : Shape.Pairs S ss ns ns') {depth : Nat} :
    CheckM.Matches S depth Eq (checkStmts ns) (checkStmts ns') := by
  induction h with
  | nil => exact .pure rfl
  | cons hn _ ih =>
    obtain ⟨hs, hss⟩ := List.forall_mem_cons.1 hss
    rw [checkStmts, checkStmts]
    exact (hs hn).bind_eq fun _ => (ih hss).bind_eq fun _ => .pure rfl

/-- A block matches if its statements do. -/
theorem matches_checkBlock {ss : List Shape} (hss : ∀ s ∈ ss, StmtsMatch S s) {n n' : Node}
    (hn : (Shape.branch .block ss).Pair S n n') {depth : Nat} :
    CheckM.Matches S depth Eq (checkBlock n) (checkBlock n') := by
  obtain ⟨-, hparts⟩ := hn.branch
  rw [checkBlock, checkBlock]
  exact matches_checkStmts hss hparts

namespace StmtsMatch

theorem print {e : Shape} (he : Laid N .expr e) : StmtsMatch S (.branch .printStmt [e]) := by
  intro depth n n' hn
  obtain ⟨-, hparts⟩ := hn.branch
  obtain _ | ⟨hargument, _ | _⟩ := hparts
  rw [checkStmt, checkStmt]
  exact (ExprsMatch.of_laid he hargument).bind_eq fun _ => .pure rfl

theorem varDec {name : String} {e : Shape} (he : Laid N .expr e) :
    StmtsMatch S (.branch .varDec [.leaf .id name, e]) := by
  intro depth n n' hn
  obtain ⟨-, hparts⟩ := hn.branch
  rw [checkStmt, checkStmt]
  exact matches_checkVarDec he hparts

theorem assign {t e : Shape} (ht : t.rule = .id ∨ t.rule = .subscript) (htarget : Laid N .expr t)
    (he : Laid N .expr e) : StmtsMatch S (.branch .assignStmt [t, e]) := by
  intro depth n n' hn
  obtain ⟨-, hparts⟩ := hn.branch
  rw [checkStmt, checkStmt]
  exact matches_checkAssign ht htarget he hparts

/-- A loop matches if its test and its body do. -/
theorem loop {e : Shape} {ss : List Shape} (he : Laid N .expr e) (hss : ∀ s ∈ ss, StmtsMatch S s) :
    StmtsMatch S (.branch .whileStmt [e, .branch .block ss]) := by
  intro depth n n' hn
  obtain ⟨-, hparts⟩ := hn.branch
  obtain _ | ⟨htest, _ | ⟨hbody, _ | _⟩⟩ := hparts
  rw [checkStmt, checkStmt]
  refine (matches_checkCondition he htest).bind_eq fun test => ?_
  exact (matches_inScope (matches_checkBlock hss hbody)).bind_eq fun _ => .pure rfl

/-- A function matches if its parameters, its type and its body do. -/
theorem funDec {name : String} {ps : Shape} {types ss : List Shape} (hps : Laid N .params ps)
    (htypes : types = [] ∨ ∃ t, types = [t] ∧ Laid N .type t) (hss : ∀ s ∈ ss, StmtsMatch S s) :
    StmtsMatch S (.branch .funDec (.leaf .id name :: ps :: types ++ [.branch .block ss])) := by
  intro depth n n' hn
  obtain ⟨-, hparts⟩ := hn.branch
  obtain _ | ⟨hname, _ | ⟨hparams, hparts⟩⟩ := hparts
  rw [checkStmt, checkStmt]
  refine (matches_reading fun ctx => ctx.agree_newFunction hname).bind_eq fun text => ?_
  refine (matches_reading fun _ => agree_toParams hps hparams).bind fun xs xs' hxs => ?_
  obtain rfl | ⟨t, rfl, ht⟩ := htypes
  · obtain _ | ⟨hbody, _ | _⟩ := hparts
    exact matches_checkFunction hname.start text hxs .void (matches_checkBlock hss hbody)
  · obtain _ | ⟨htype, _ | ⟨hbody, _ | _⟩⟩ := hparts
    refine (matches_reading fun _ => agree_toType ht htype).bind_eq fun type => ?_
    exact matches_checkFunction hname.start text hxs type (matches_checkBlock hss hbody)

theorem result {ss : List Shape} (hss : ∀ s ∈ ss, Laid N .expr s) :
    StmtsMatch S (.branch .returnStmt ss) := by
  intro depth n n' hn
  obtain ⟨hstart, hparts⟩ := hn.branch
  rw [checkStmt, checkStmt]
  exact matches_checkResult hstart hss hparts

theorem callStmt {f : Shape} (hf : f.rule = .call) (h : Laid N .expr f) :
    StmtsMatch S (.branch .callStmt [f]) := by
  intro depth n n' hn
  obtain ⟨-, hparts⟩ := hn.branch
  obtain _ | ⟨hcall, _ | _⟩ := hparts
  obtain ⟨name, es, rfl, hes⟩ := h.eq_branch_of_call hf
  obtain ⟨-, hparts⟩ := hcall.branch
  rw [checkStmt, checkStmt]
  have hargs := fun e he => ExprsMatch.of_laid (S := S) (hes e he)
  exact (matches_checkCall hargs hparts _ _).bind_eq fun _ => .pure rfl

end StmtsMatch

/-- What the trees of a category are or hold is typed alike. -/
def LaidMatch (S : Position → Position → Prop) : Category → Shape → Prop
  | .stmt, s => StmtsMatch S s
  | .block, s => ∃ ss, s = .branch .block ss ∧ ∀ s ∈ ss, StmtsMatch S s
  | _, _ => True

/-- The cases of the layout, one for each kind of statement. -/
theorem laidMatch_of_laid (h : Laid N c s) : LaidMatch S c s := by
  induction h with
  | print he => exact .print he
  | varDec he => exact .varDec he
  | assign ht htarget he => exact .assign ht htarget he
  | loop he _ _ ih =>
    obtain ⟨ss, rfl, hss⟩ := ih
    exact .loop he hss
  | procedure hps _ _ ih =>
    obtain ⟨ss, rfl, hss⟩ := ih
    exact .funDec hps (.inl rfl) hss
  | function hps ht _ _ _ ih =>
    obtain ⟨ss, rfl, hss⟩ := ih
    exact .funDec hps (.inr ⟨_, rfl, ht⟩) hss
  | result => exact .result (N := N) (List.forall_mem_nil _)
  | resultOf he => exact .result (List.forall_mem_singleton.2 he)
  | callStmt hf he => exact .callStmt hf he
  | block _ ih => exact ⟨_, rfl, ih⟩
  | _ => trivial

/-- Programs that match have the same typed program, or matching faults that end their typing. -/
theorem agree_analyze {n n' : Node} (h : Laid N .program n.shape) (hn : n.MatchesBelow S n') :
    Agree S Eq (analyze n) (analyze n') := by
  have hlaid : ∀ s ∈ n.children.map Node.shape, Laid N .stmt s := by
    obtain ⟨rule, text, span, children⟩ := n
    cases hn.rule
    rw [Node.shape_of_not_isLeaf rfl, Node.shapes_eq_map] at h
    cases h with
    | program hss => exact hss
  have hcheck : CheckM.Matches S 0 Eq (checkProgram n) (checkProgram n') := by
    rw [checkProgram, checkProgram, if_pos hn.rule, if_pos hn.rule']
    refine Lockstep.bind_eq ?_ fun _ => .pure rfl
    exact matches_checkStmts (fun s hs => laidMatch_of_laid (hlaid s hs))
      (Node.pairs_of_matches hn.children)
  have hempty : Context.empty.Same 0 Context.empty := ⟨rfl, rfl⟩
  rcases (hcheck hempty).exists_eq with ⟨_, _, _, _, hr, hr', hp, -⟩ | ⟨_, _, _, _, hr, hr', hd⟩
  · rw [analyze, analyze, hr, hr']
    exact .ok hp
  · rw [analyze, analyze, hr, hr']
    exact .error hd

end Scriptlet
