import Scriptlet.Proofs.SyntaxTree.Layout
import Scriptlet.Proofs.Typing.Numerals
import Scriptlet.Proofs.Typing.Reading

/-!
The checker elaborates expressions as the rules do: on a tree that is laid out, it returns an
expression exactly if the rules give it, with the functions and the variables of the context.
-/

namespace Scriptlet

open Outcome CheckM

/-! ## Types and operators -/

theorem Scalar.ofName?_eq_some_iff {name : String} {s : Scalar} :
    ofName? name = some s ↔ name = s.name := by
  constructor
  · intro h
    unfold ofName? at h
    split at h <;> cases h <;> rfl
  · rintro rfl
    exact ofName?_name s

/-- A tree of a type is read to the type that it denotes. A name that is no type is refused, and so
is an array of it. -/
theorem Node.toType_eq_ok_iff {s : Shape} (h : Laid N .type s) {n : Node} (hn : n.shape = s)
    {t : Ty} :
    n.toType = .ok t ↔ DenotesType s t := by
  generalize hc : Category.type = c at h
  induction h generalizing n t with
  | @typeName name =>
    obtain ⟨span, children, rfl⟩ := exists_of_shape_eq_leaf hn
    rw [toType]
    constructor
    · intro h
      split at h
      · next s hs =>
        cases h
        rw [Scalar.ofName?_eq_some_iff.1 hs]
        exact .name s
      · cases h
    · rintro ⟨s⟩
      rw [Scalar.ofName?_name]
  | arrayType _ ih =>
    obtain ⟨text, span, children, rfl, hchildren⟩ := exists_of_shape_eq_branch hn
    obtain ⟨element, rest, rfl, helement, -⟩ := List.map_eq_cons_iff.1 hchildren
    simp only [toType, exceptBind_eq_ok, exceptPure_eq_ok, ih helement hc]
    constructor
    · rintro ⟨u, hu, rfl⟩
      exact .array hu
    · intro h
      cases h with
      | array hu => exact ⟨_, hu, rfl⟩
  | _ => cases hc

/-- The check of a type passes exactly if the types are the same. -/
theorem expectType_eq_ok_iff {kind : Mismatch} {expected received : Ty} {position : Position}
    {u : Unit} : expectType kind expected received position = .ok u ↔ expected = received := by
  unfold expectType
  split <;> simp [*]

/-- The result of an operator is the one of its rule. The operator `??` has no rule, as no tree that
is laid out holds it. -/
theorem BinaryOp.resultType_eq_ok_iff {op : BinaryOp} (hop : op ≠ .coalesce) {left right t : Ty}
    {position : Position} :
    op.resultType left right position = .ok t ↔ op.HasTypes left right t := by
  constructor
  · intro h
    cases op with
    | coalesce => exact (hop rfl).elim
    | add | subtract =>
      simp only [resultType, exceptBind_eq_ok, expectType_eq_ok_iff, exceptPure_eq_ok] at h
      obtain ⟨-, rfl, rfl⟩ := h
      exact .additive (by simp)
    | multiply | divide | modulo | power =>
      simp only [resultType, exceptBind_eq_ok, expectType_eq_ok_iff, exceptPure_eq_ok] at h
      obtain ⟨-, rfl, -, rfl, rfl⟩ := h
      exact .numeric (by simp)
    | _ =>
      simp only [resultType, exceptBind_eq_ok, expectType_eq_ok_iff, exceptPure_eq_ok] at h
      obtain ⟨-, rfl, rfl⟩ := h
      exact .relational rfl
  · intro h
    cases h with
    | relational h =>
      have hsame : expectType (.binary op.symbol) left left position = .ok () :=
        expectType_eq_ok_iff.2 rfl
      cases op <;> first | exact exceptBind_eq_ok.2 ⟨(), hsame, rfl⟩ | cases h
    | additive h =>
      have hsame : expectType (.binary op.symbol) left left position = .ok () :=
        expectType_eq_ok_iff.2 rfl
      rcases h with rfl | rfl <;> exact exceptBind_eq_ok.2 ⟨(), hsame, rfl⟩
    | numeric h => rcases h with rfl | rfl | rfl | rfl <;> rfl

/-- An operation is typed exactly if its operands have the types of the sign. -/
theorem Expr.ofBinary_eq_ok_iff {op : BinaryOp} (hop : op ≠ .coalesce) {rule : Rule} {span : Span}
    {children : List Node} {left right e : Expr} :
    ofBinary ⟨rule, op.symbol, span, children⟩ left right = .ok e ↔
      ∃ t, op.HasTypes left.ty right.ty t ∧ e = .binary op left right t := by
  rw [ofBinary, BinaryOp.ofSymbol?_symbol]
  simp only [exceptBind_eq_ok, exceptPure_eq_ok, BinaryOp.resultType_eq_ok_iff hop]

/-- A sign before an operand asks for its own type and gives it. -/
theorem Expr.ofUnary_eq_ok_iff {op : UnaryOp} {rule : Rule} {span : Span} {children : List Node}
    {operand e : Expr} :
    ofUnary ⟨rule, op.symbol, span, children⟩ operand = .ok e ↔
      operand.ty = op.ty ∧ e = .unary op operand op.ty := by
  rw [ofUnary, UnaryOp.ofSymbol?_symbol]
  simp only [exceptBind_eq_ok, exceptPure_eq_ok, expectType_eq_ok_iff]
  constructor
  · rintro ⟨-, ht, he⟩
    exact ⟨ht.symm, he⟩
  · rintro ⟨ht, he⟩
    exact ⟨(), ht.symm, he⟩

theorem BinaryOp.symbol_injective {op op' : BinaryOp} (h : op.symbol = op'.symbol) : op = op' := by
  have := ofSymbol?_symbol op
  rw [h, ofSymbol?_symbol] at this
  exact (Option.some.inj this).symm

/-- Numbers of both kinds have one type. -/
theorem DenotesNumber.ty_eq (h : DenotesNumber cs value) : value.ty = .num := by
  cases h with
  | wide | float => rfl

/-- The type that a rule gives is the one that the expression is marked with. -/
theorem ElabExpr.ty_eq (h : ElabExpr Φ Γ s e t) : e.ty = t := by
  cases h with
  | number hvalue => exact hvalue.ty_eq
  | _ => rfl

theorem ElabExpr.self (h : ElabExpr Φ Γ s e t) : ElabExpr Φ Γ s e e.ty := by
  rwa [h.ty_eq]

theorem ElabExprs.map_ty : ElabExprs Φ Γ ss es ts → es.map Expr.ty = ts
  | .nil => rfl
  | .cons h hs => by rw [List.map_cons, h.ty_eq, hs.map_ty]

/-- Each tree has one type. -/
theorem ElabExprs.length_eq : ElabExprs Φ Γ ss es ts → ss.length = ts.length
  | .nil => rfl
  | .cons _ hs => congrArg (· + 1) hs.length_eq

/-- There are as many trees as things whose types the rules give. -/
theorem ElabExprs.length_of_map {α : Type} {f : α → Ty} {as : List α} {ns : List Node}
    (h : ElabExprs Φ Γ (ns.map Node.shape) es (as.map f)) : as.length = ns.length := by
  have hlength := h.length_eq
  rwa [List.length_map, List.length_map, eq_comm] at hlength

/-- An operation is elaborated by the rule of its own sign. -/
theorem ElabExpr.binary_iff {op : BinaryOp} :
    ElabExpr Φ Γ (.branch .binary [l, .leaf .op op.symbol, r]) e e.ty ↔
    ∃ l' r' t, ElabExpr Φ Γ l l' l'.ty ∧ ElabExpr Φ Γ r r' r'.ty ∧ op.HasTypes l'.ty r'.ty t ∧
      e = .binary op l' r' t := by
  constructor
  · intro h
    generalize htext : op.symbol = text at h
    generalize e.ty = t at h
    cases h with
    | binary hl hr ht =>
      obtain rfl := BinaryOp.symbol_injective htext
      rw [← hl.ty_eq, ← hr.ty_eq] at ht
      exact ⟨_, _, _, hl.self, hr.self, ht, rfl⟩
  · rintro ⟨l', r', t, hl, hr, ht, rfl⟩
    exact .binary hl hr ht

theorem ElabExpr.unary_iff {op : UnaryOp} :
    ElabExpr Φ Γ (.branch .unary [.leaf .op op.symbol, s]) e e.ty ↔
    ∃ e', ElabExpr Φ Γ s e' e'.ty ∧ e'.ty = op.ty ∧ e = .unary op e' op.ty := by
  constructor
  · intro h
    generalize htext : op.symbol = text at h
    generalize e.ty = t at h
    cases h with
    | negate h =>
      cases op with
      | negate => exact ⟨_, h.self, h.ty_eq, rfl⟩
      | not => simp [UnaryOp.symbol] at htext
    | not h =>
      cases op with
      | negate => simp [UnaryOp.symbol] at htext
      | not => exact ⟨_, h.self, h.ty_eq, rfl⟩
  · rintro ⟨e', h, ht, rfl⟩
    rw [ht] at h
    cases op with
    | negate => exact .negate h
    | not => exact .not h

/-! ## Elements, subscripts and calls -/

namespace Expr

theorem expectElements_eq_ok_iff {t : Ty} {es : List Expr} {ns : List Node} {u : Unit}
    (hlen : es.length = ns.length) :
    expectElements t es ns = .ok u ↔ ∀ e ∈ es, e.ty = t := by
  induction es generalizing ns with
  | nil => simp [expectElements]
  | cons e es ih =>
    cases ns with
    | nil => cases hlen
    | cons n ns =>
      rw [expectElements, List.forall_mem_cons]
      by_cases he : e.ty = t
      · rw [if_pos he, ih (Nat.succ.inj hlen)]
        exact (and_iff_right he).symm
      · simp [he]

/-- A list of elements is an array if there is one at least and all have the same type. -/
theorem ofElements_eq_ok_iff {span : Span} {es : List Expr} {ns : List Node} {e : Expr}
    (hlen : es.length = ns.length) :
    ofElements span es ns = .ok e ↔
      ∃ t, es ≠ [] ∧ (∀ e ∈ es, e.ty = t) ∧ e = .array es (.array t) := by
  cases es with
  | nil => simp [ofElements]
  | cons first rest =>
    cases ns with
    | nil => cases hlen
    | cons n ns =>
      simp only [ofElements, exceptBind_eq_ok, exceptPure_eq_ok, List.tail_cons,
        expectElements_eq_ok_iff (Nat.succ.inj hlen)]
      constructor
      · rintro ⟨-, hrest, rfl⟩
        exact ⟨first.ty, nofun, List.forall_mem_cons.2 ⟨rfl, hrest⟩, rfl⟩
      · rintro ⟨t, -, hall, rfl⟩
        obtain ⟨rfl, hrest⟩ := List.forall_mem_cons.1 hall
        exact ⟨(), hrest, rfl⟩

/-- An element is taken from an array, and with a number. -/
theorem ofSubscript_eq_ok_iff {n m : Node} {base index e : Expr} :
    ofSubscript n m base index = .ok e ↔
      ∃ t, base.ty = .array t ∧ index.ty = .num ∧ e = .subscript base index t := by
  unfold ofSubscript
  cases base.ty with
  | scalar s => simp [Ty.element?]
  | array t =>
    simp only [Ty.element?, Ty.array.injEq, exists_eq_left']
    by_cases hi : index.ty = .num
    · simp [hi, eq_comm]
    · simp [hi]

end Expr

namespace Context

/-- The functions declared so far, the first one first. -/
def known (ctx : Context) : List Signature := ctx.functions.reverse

/-- The variables that can be seen, the nearest first. -/
def visible (ctx : Context) : List Variable := ctx.scopes.flatMap Scope.bindings

variable {ctx : Context}

/-- The scopes are searched as one list, the innermost first. -/
theorem lookup_eq_ok_iff {name : String} {position : Position} {v : Variable} :
    ctx.lookup name position = .ok v ↔ ctx.visible.find? (·.name = name) = some v := by
  have hfind : ctx.scopes.findSome? (·.find? name) = ctx.visible.find? (·.name = name) :=
    List.find?_flatMap.symm
  rw [lookup, hfind]
  cases ctx.visible.find? (·.name = name) <;> simp

/-- A name that is declared once is found wherever it stands. -/
theorem function?_eq_some_iff (h : (ctx.functions.map Signature.name).Nodup) {name : String}
    {f : Signature} : ctx.function? name = some f ↔ f ∈ ctx.known ∧ f.name = name := by
  rw [function?, known, List.mem_reverse]
  generalize ctx.functions = fs at h
  constructor
  · intro hf
    exact ⟨List.mem_of_find?_eq_some hf, by simpa using List.find?_some hf⟩
  · rintro ⟨hf, rfl⟩
    induction fs with
    | nil => cases hf
    | cons g gs ih =>
      obtain ⟨hg, hgs⟩ := List.nodup_cons.1 h
      rcases List.mem_cons.1 hf with rfl | hf
      · simp
      · have hne : g.name ≠ f.name := fun he => hg (he ▸ List.mem_map_of_mem hf)
        rw [List.find?_cons_of_neg (by simpa using hne), ih hgs hf]

/-- A call is of a function that is declared before it, with as many arguments as it has parameters.
-/
theorem callee_eq_ok_iff (h : (ctx.functions.map Signature.name).Nodup) {n : Node} {name : String}
    (hn : n.shape = .leaf .id name) {count : Nat} {f : Signature} :
    ctx.callee n count = .ok f ↔ (f ∈ ctx.known ∧ f.name = name) ∧ f.params.length = count := by
  obtain ⟨span, children, rfl⟩ := Node.exists_of_shape_eq_leaf hn
  rw [← function?_eq_some_iff h]
  simp only [callee, Node.identifier, if_true, exceptBind_eq_ok, Except.ok.injEq, exists_eq_left']
  cases ctx.function? name with
  | none => simp [throw, throwThe, MonadExceptOf.throw]
  | some g =>
    by_cases hg : count = g.params.length
    · simp only [if_pos hg, exceptPure_eq_ok]
      constructor
      · rintro rfl
        exact ⟨rfl, hg.symm⟩
      · rintro ⟨hf, -⟩
        exact (Option.some.inj hf).symm
    · simp only [if_neg hg]
      constructor
      · intro hthrow
        cases hthrow
      · rintro ⟨hf, hlen⟩
        cases hf
        exact (hg hlen.symm).elim

/-! ## Expressions -/

/-- The checker agrees with the rules on a tree. -/
def Agrees (ctx : Context) (n : Node) : Prop :=
  ∀ ⦃e⦄, checkExpr n ctx = .ok e ctx ↔ ElabExpr ctx.known ctx.visible n.shape e e.ty

theorem Agrees.checkExpr_eq_ok_iff {n : Node} (h : ctx.Agrees n) {e : Expr} :
    checkExpr n ctx = .ok e ctx ↔ ElabExpr ctx.known ctx.visible n.shape e e.ty :=
  @h e

theorem checkExprs_eq_ok_iff {ns : List Node} (h : ∀ n ∈ ns, ctx.Agrees n) {es : List Expr} :
    checkExprs ns ctx = .ok es ctx ↔
      ElabExprs ctx.known ctx.visible (ns.map Node.shape) es (es.map Expr.ty) := by
  induction ns generalizing es with
  | nil =>
    rw [checkExprs, pure_eq_ok]
    constructor
    · rintro ⟨rfl, -⟩
      exact .nil
    · intro hes
      generalize es.map Expr.ty = ts at hes
      cases hes
      exact ⟨rfl, rfl⟩
  | cons n ns ih =>
    obtain ⟨hn, hns⟩ := List.forall_mem_cons.1 h
    simp only [checkExprs, checkExpr_bind_eq_ok, checkExprs_bind_eq_ok, pure_eq_ok, and_true,
      hn.checkExpr_eq_ok_iff, ih hns]
    constructor
    · rintro ⟨e, he, es, hes, rfl⟩
      exact .cons he hes
    · intro hes
      generalize hts : es.map Expr.ty = ts at hes
      cases hes with
      | cons he hes =>
        rw [← hes.map_ty] at hes
        exact ⟨_, he.self, _, hes, rfl⟩

/-- Each argument is elaborated with the type of its parameter. -/
theorem checkArgs_eq_ok_iff {ns : List Node} (h : ∀ n ∈ ns, ctx.Agrees n) {params : List Variable}
    (hlen : params.length = ns.length) {function : String} {index : Nat} {es : List Expr} :
    checkArgs function index params ns ctx = .ok es ctx ↔
      ElabExprs ctx.known ctx.visible (ns.map Node.shape) es (params.map Variable.ty) := by
  induction ns generalizing params index es with
  | nil =>
    obtain rfl := List.eq_nil_of_length_eq_zero hlen
    simp only [checkArgs, pure_eq_ok, and_true]
    constructor
    · rintro rfl
      exact .nil
    · intro hes
      cases hes with
      | nil => rfl
  | cons n ns ih =>
    cases params with
    | nil => cases hlen
    | cons param params =>
      obtain ⟨hn, hns⟩ := List.forall_mem_cons.1 h
      simp only [checkArgs, checkExpr_bind_eq_ok, hn.checkExpr_eq_ok_iff]
      constructor
      · rintro ⟨e, he, hrest⟩
        by_cases ht : e.ty = param.ty
        · rw [if_pos ht] at hrest
          simp only [checkArgs_bind_eq_ok, pure_eq_ok, and_true,
            ih hns (Nat.succ.inj hlen)] at hrest
          obtain ⟨es, hes, rfl⟩ := hrest
          exact .cons (ht ▸ he) hes
        · rw [if_neg ht] at hrest
          cases hrest
      · intro hes
        cases hes with
        | cons he hes =>
          refine ⟨_, he.self, ?_⟩
          rw [if_pos he.ty_eq]
          simp only [checkArgs_bind_eq_ok, pure_eq_ok, and_true, ih hns (Nat.succ.inj hlen)]
          exact ⟨_, hes, rfl⟩

/-- Names and literals. This is the only place where the text of a leaf counts, and of the leaves
only numbers have to be described by their pattern. -/
theorem agrees_atom {rule : Rule} (hrule : rule.isAtom = true) {text : String}
    (htext : rule = .num → Pattern.number.Describes text) {n : Node}
    (hn : n.shape = .leaf rule text) : ctx.Agrees n := by
  intro e
  obtain ⟨span, children, rfl⟩ := Node.exists_of_shape_eq_leaf hn
  rw [hn]
  generalize hty : e.ty = t
  cases rule with
  | num =>
    rw [checkExpr]
    cases hvalue : Literal.ofNumeral? text with
    | none =>
      refine iff_of_false (fun h => by cases h) fun h => ?_
      cases h with
      | number hnumber => cases hvalue.symm.trans ((ofNumeral?_eq_some_iff (htext rfl)).2 hnumber)
    | some value =>
      have hnumber := (ofNumeral?_eq_some_iff (htext rfl)).1 hvalue
      constructor
      · rintro ⟨⟩
        obtain rfl : .num = t := hnumber.ty_eq.symm.trans hty
        exact .number hnumber
      · intro h
        cases h with
        | number hnumber' =>
          cases hvalue.symm.trans ((ofNumeral?_eq_some_iff (htext rfl)).2 hnumber')
          rfl
  | str =>
    rw [checkExpr]
    constructor
    · rintro ⟨⟩
      exact hty ▸ .string
    · rintro ⟨⟩
      rfl
  | true =>
    rw [checkExpr]
    constructor
    · rintro ⟨⟩
      exact hty ▸ .true
    · rintro ⟨⟩
      rfl
  | false =>
    rw [checkExpr]
    constructor
    · rintro ⟨⟩
      exact hty ▸ .false
    · rintro ⟨⟩
      rfl
  | id =>
    simp only [checkExpr, reading_bind_eq_ok, pure_eq_ok, and_true, lookup_eq_ok_iff]
    constructor
    · rintro ⟨v, hv, rfl⟩
      exact hty ▸ .var hv
    · intro h
      cases h with
      | var hv => exact ⟨_, hv, rfl⟩
  | _ => cases hrule

/-- A call, from the parts of its node. -/
theorem checkCall_eq_ok_iff (hctx : (ctx.functions.map Signature.name).Nodup) {n : Node}
    {name : String} (hn : n.shape = .leaf .id name) {ns : List Node}
    (hns : ∀ n ∈ ns, ctx.Agrees n) {span : Span} {f : Signature} {args : List Expr} :
    checkCall span (n :: ns) ctx = .ok (f, args) ctx ↔ f ∈ ctx.known ∧ f.name = name ∧
      ElabExprs ctx.known ctx.visible (ns.map Node.shape) args (f.params.map Variable.ty) := by
  simp only [checkCall, reading_bind_eq_ok, checkArgs_bind_eq_ok, pure_eq_ok, and_true,
    callee_eq_ok_iff hctx hn]
  constructor
  · rintro ⟨g, ⟨⟨hg, hname⟩, hlen⟩, es, hes, heq⟩
    cases heq
    exact ⟨hg, hname, (checkArgs_eq_ok_iff hns hlen).1 hes⟩
  · rintro ⟨hf, hname, hes⟩
    have hlen := hes.length_of_map
    exact ⟨f, ⟨⟨hf, hname⟩, hlen⟩, args, (checkArgs_eq_ok_iff hns hlen).2 hes, rfl⟩

/-- On every tree that is laid out as an expression, the checker agrees with the rules. -/
theorem agrees_of_laid (hctx : (ctx.functions.map Signature.name).Nodup) {s : Shape}
    (h : Laid Pattern.number.Describes .expr s) {n : Node} (hn : n.shape = s) : ctx.Agrees n := by
  generalize hc : Category.expr = c at h
  induction h generalizing n with
  | atom hrule htext => exact agrees_atom hrule htext hn
  | binary hop _ _ ihl ihr =>
    obtain ⟨text, span, children, rfl, hchildren⟩ := Node.exists_of_shape_eq_branch hn
    simp only [List.map_eq_cons_iff, List.map_eq_nil_iff] at hchildren
    obtain ⟨left, _, rfl, rfl, sign, _, rfl, hsign, right, _, rfl, rfl, rfl⟩ := hchildren
    obtain ⟨signSpan, signChildren, rfl⟩ := Node.exists_of_shape_eq_leaf hsign
    have hl : ctx.Agrees left := ihl rfl hc
    have hr : ctx.Agrees right := ihr rfl hc
    intro e
    simp only [hn, checkExpr, checkExpr_bind_eq_ok, reading_eq_ok, and_true, hl.checkExpr_eq_ok_iff,
      hr.checkExpr_eq_ok_iff, Expr.ofBinary_eq_ok_iff hop, ElabExpr.binary_iff]
    constructor
    · rintro ⟨l, hl, r, hr, t, ht, he⟩
      exact ⟨l, r, t, hl, hr, ht, he⟩
    · rintro ⟨l, r, t, hl, hr, ht, he⟩
      exact ⟨l, hl, r, hr, t, ht, he⟩
  | unary _ ih =>
    obtain ⟨text, span, children, rfl, hchildren⟩ := Node.exists_of_shape_eq_branch hn
    simp only [List.map_eq_cons_iff, List.map_eq_nil_iff] at hchildren
    obtain ⟨sign, _, rfl, hsign, operand, _, rfl, rfl, rfl⟩ := hchildren
    obtain ⟨signSpan, signChildren, rfl⟩ := Node.exists_of_shape_eq_leaf hsign
    have ho : ctx.Agrees operand := ih rfl hc
    intro e
    simp only [hn, checkExpr, checkExpr_bind_eq_ok, reading_eq_ok, and_true, ho.checkExpr_eq_ok_iff,
      Expr.ofUnary_eq_ok_iff, ElabExpr.unary_iff]
  | array _ ih =>
    obtain ⟨text, span, children, rfl, rfl⟩ := Node.exists_of_shape_eq_branch hn
    have hall : ∀ n ∈ children, ctx.Agrees n := fun n hn' => ih _ (List.mem_map_of_mem hn') rfl hc
    intro e
    simp only [hn, checkExpr, checkExprs_bind_eq_ok, reading_eq_ok, and_true,
      checkExprs_eq_ok_iff hall]
    constructor
    · rintro ⟨es, hes, h⟩
      obtain ⟨t, hne, ht, rfl⟩ := (Expr.ofElements_eq_ok_iff hes.length_of_map).1 h
      exact .array hes (by simpa using hne) (List.forall_mem_map.2 ht)
    · intro h
      generalize e.ty = t at h
      cases h with
      | array hes hne ht =>
        obtain rfl := hes.map_ty
        exact ⟨_, hes, (Expr.ofElements_eq_ok_iff hes.length_of_map).2
          ⟨_, by simpa using hne, List.forall_mem_map.1 ht, rfl⟩⟩
  | subscript _ _ ihb ihi =>
    obtain ⟨text, span, children, rfl, hchildren⟩ := Node.exists_of_shape_eq_branch hn
    simp only [List.map_eq_cons_iff, List.map_eq_nil_iff] at hchildren
    obtain ⟨base, _, rfl, rfl, index, _, rfl, rfl, rfl⟩ := hchildren
    have hb : ctx.Agrees base := ihb rfl hc
    have hi : ctx.Agrees index := ihi rfl hc
    intro e
    simp only [hn, checkExpr, checkExpr_bind_eq_ok, reading_eq_ok, and_true, hb.checkExpr_eq_ok_iff,
      hi.checkExpr_eq_ok_iff, Expr.ofSubscript_eq_ok_iff]
    constructor
    · rintro ⟨b, hb, i, hi, t, ht, hnum, rfl⟩
      exact .subscript (ht ▸ hb) (hnum ▸ hi)
    · intro h
      generalize e.ty = t at h
      cases h with
      | subscript hb hi => exact ⟨_, hb.self, _, hi.self, _, hb.ty_eq, hi.ty_eq, rfl⟩
  | call _ ih =>
    obtain ⟨text, span, children, rfl, hchildren⟩ := Node.exists_of_shape_eq_branch hn
    obtain ⟨name, args, rfl, hname, rfl⟩ := List.map_eq_cons_iff.1 hchildren
    have hall : ∀ n ∈ args, ctx.Agrees n := fun n hn' => ih _ (List.mem_map_of_mem hn') rfl hc
    intro e
    simp only [hn, checkExpr, checkCall_bind_eq_ok, pure_eq_ok, and_true]
    constructor
    · rintro ⟨⟨f, es⟩, h, rfl⟩
      obtain ⟨hf, rfl, hes⟩ := (checkCall_eq_ok_iff hctx hname hall).1 h
      exact .call hf hes
    · intro h
      generalize e.ty = t at h
      cases h with
      | call hf hes => exact ⟨⟨_, _⟩, (checkCall_eq_ok_iff hctx hname hall).2 ⟨hf, rfl, hes⟩, rfl⟩
  | _ => cases hc

end Context

end Scriptlet
