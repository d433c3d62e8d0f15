import Scriptlet.Proofs.Outcome
import Scriptlet.Typing.Stmt

/-!
Steps of typing that leave the context as they find it, whether they succeed or fail. Typing an
expression is one of them, for any context and any tree, and so is what statements do with their
expressions before they declare anything.
-/

namespace Scriptlet

open Outcome CheckM

/-- Induction over all trees: what holds of a node if it holds of its children. -/
theorem Node.induction {P : Node → Prop}
    (step : ∀ rule text span children, (∀ n ∈ children, P n) → P ⟨rule, text, span, children⟩)
    (n : Node) : P n := by
  refine Node.rec (motive_1 := P) (motive_2 := fun ns => ∀ n ∈ ns, P n) step ?_ ?_ n
  · exact fun n hn => absurd hn List.not_mem_nil
  · exact fun n ns hn hns => List.forall_mem_cons.2 ⟨hn, hns⟩

/-! ## What a step leaves -/

namespace CheckM

variable {α β : Type} {ctx ctx' : Context}

/-- The context that a step leaves, also where it fails. -/
def left (m : CheckM α) (ctx : Context) : Context :=
  match m ctx with
  | .ok _ ctx' => ctx'
  | .error _ ctx' => ctx'

theorem left_eq_of_ok {m : CheckM α} {a : α} (h : m ctx = .ok a ctx') : m.left ctx = ctx' := by
  rw [left, h]

/-- An error comes with the context in which it was found. -/
theorem left_eq_of_error {m : CheckM α} {d : Diagnostic} (h : m ctx = .error d ctx') :
    m.left ctx = ctx' := by
  rw [left, h]

/-- The rest begins where the first step ends; if that one fails, it is all there is. -/
theorem left_bind {m : CheckM α} {f : α → CheckM β} {P : Context → Prop} (hm : P (m.left ctx))
    (hf : ∀ a c, m ctx = .ok a c → P c → P ((f a).left c)) : P ((m >>= f).left ctx) := by
  have hbind : (m >>= f) ctx = EStateM.bind m f ctx := rfl
  cases h : m ctx with
  | ok a c =>
    rw [left_eq_of_ok h] at hm
    rw [left, hbind, EStateM.bind, h]
    exact hf a c h hm
  | error d c =>
    rw [left_eq_of_error h] at hm
    rw [left, hbind, EStateM.bind, h]
    exact hm

/-- What only reads the context succeeds with the context that it was given. -/
theorem reading_eq_ok {f : Context → Except Diagnostic α} {a : α} :
    reading f ctx = .ok a ctx' ↔ f ctx = .ok a ∧ ctx' = ctx := by
  unfold reading
  cases f ctx <;> simp [eq_comm]

/-- The step leaves the context as it is, whatever comes of it. -/
def Reads (m : CheckM α) : Prop := ∀ ctx, m.left ctx = ctx

namespace Reads

variable {m m' : CheckM α} {f : α → CheckM β}

theorem pure (a : α) : Reads (pure a) := fun _ => rfl

theorem throw (d : Diagnostic) : Reads (throw d : CheckM α) := fun _ => rfl

theorem reading (g : Context → Except Diagnostic α) : Reads (reading g) := by
  intro ctx
  rw [left, CheckM.reading]
  cases g ctx <;> rfl

/-- Steps that only read can be put one after the other. -/
theorem bind (hm : Reads m) (hf : ∀ a, Reads (f a)) : Reads (m >>= f) := by
  intro ctx
  refine left_bind (P := (· = ctx)) (hm ctx) ?_
  rintro a c - rfl
  exact hf a c

theorem ite {p : Prop} [Decidable p] (hm : Reads m) (hm' : Reads m') :
    Reads (if p then m else m') := by
  split
  · exact hm
  · exact hm'

/-- Such a step succeeds in the context that it starts from. -/
theorem ok_iff (hm : Reads m) {a : α} : m ctx = .ok a ctx' ↔ m ctx = .ok a ctx ∧ ctx' = ctx := by
  constructor
  · intro h
    obtain rfl := (left_eq_of_ok h).symm.trans (hm ctx)
    exact ⟨h, rfl⟩
  · rintro ⟨h, rfl⟩
    exact h

/-- A step that only reads ends with the context as it was, whichever way it ends. -/
theorem error_or_ok (hm : Reads m) (ctx : Context) :
    (∃ d, m ctx = .error d ctx) ∨ ∃ a, m ctx = .ok a ctx := by
  cases h : m ctx with
  | ok a c =>
    obtain rfl := (left_eq_of_ok h).symm.trans (hm ctx)
    exact .inr ⟨a, rfl⟩
  | error d c =>
    obtain rfl := (left_eq_of_error h).symm.trans (hm ctx)
    exact .inl ⟨d, rfl⟩

/-- What follows such a step begins where the step began. -/
theorem bind_eq_ok (hm : Reads m) {b : β} :
    (m >>= f) ctx = .ok b ctx' ↔ ∃ a, m ctx = .ok a ctx ∧ f a ctx = .ok b ctx' := by
  rw [Outcome.bind_eq_ok]
  constructor
  · rintro ⟨a, c, ha, hb⟩
    obtain ⟨ha, rfl⟩ := hm.ok_iff.1 ha
    exact ⟨a, ha, hb⟩
  · rintro ⟨a, ha, hb⟩
    exact ⟨a, ctx, ha, hb⟩

/-- The same for what is left at the end. -/
theorem left_bind (hm : Reads m) {P : Context → Prop} (hP : P ctx)
    (hf : ∀ a, m ctx = .ok a ctx → P ((f a).left ctx)) : P ((m >>= f).left ctx) := by
  refine CheckM.left_bind ((hm ctx).symm ▸ hP) fun a c h _ => ?_
  obtain ⟨h, rfl⟩ := hm.ok_iff.1 h
  exact hf a h

end Reads

theorem reading_bind_eq_ok {g : Context → Except Diagnostic α} {f : α → CheckM β} {b : β} :
    (reading g >>= f) ctx = .ok b ctx' ↔ ∃ a, g ctx = .ok a ∧ f a ctx = .ok b ctx' := by
  rw [(Reads.reading g).bind_eq_ok]
  simp only [reading_eq_ok, and_true]

end CheckM

/-! ## Expressions -/

/-- If the trees are only read, so is the list of them. -/
theorem reads_checkExprs {ns : List Node} (h : ∀ n ∈ ns, Reads (checkExpr n)) :
    Reads (checkExprs ns) := by
  induction ns with
  | nil => exact .pure []
  | cons n ns ih =>
    obtain ⟨hn, hns⟩ := List.forall_mem_cons.1 h
    rw [checkExprs]
    exact hn.bind fun _ => (ih hns).bind fun _ => .pure _

theorem reads_checkArgs {ns : List Node} (h : ∀ n ∈ ns, Reads (checkExpr n)) (function : String)
    (index : Nat) (params : List Variable) : Reads (checkArgs function index params ns) := by
  induction ns generalizing index params with
  | nil => cases params <;> exact .pure []
  | cons n ns ih =>
    obtain ⟨hn, hns⟩ := List.forall_mem_cons.1 h
    cases params with
    | nil => exact .pure []
    | cons param params =>
      rw [checkArgs]
      exact hn.bind fun _ => .ite ((ih hns _ _).bind fun _ => .pure _) (.throw _)

/-- The arguments of a call are checked with the context of the call. -/
theorem reads_checkCall {ns : List Node} (h : ∀ n ∈ ns, Reads (checkExpr n)) (span : Span) :
    Reads (checkCall span ns) := by
  cases ns with
  | nil => exact .throw _
  | cons name args =>
    have hargs := (List.forall_mem_cons.1 h).2
    rw [checkCall]
    exact (Reads.reading _).bind fun f => (reads_checkArgs hargs _ _ _).bind fun _ => .pure _

/-- Typing an expression leaves the context as it is, on any tree. -/
theorem reads_checkExpr (n : Node) : Reads (checkExpr n) := by
  induction n using Node.induction with
  | step rule text span children ih =>
    cases rule with
    | num =>
      rw [checkExpr]
      split
      · exact .pure _
      · exact .throw _
    | str | true | false => exact .pure _
    | id =>
      rw [checkExpr]
      exact (Reads.reading _).bind fun _ => .pure _
    | binary =>
      rcases children with _ | ⟨left, _ | ⟨op, _ | ⟨right, rest⟩⟩⟩
      · exact .throw _
      · rw [checkExpr]
        exact (ih left (by simp)).bind fun _ => .throw _
      · rw [checkExpr]
        exact (ih left (by simp)).bind fun _ => .throw _
      · rw [checkExpr]
        exact (ih left (by simp)).bind fun _ => (ih right (by simp)).bind fun _ => .reading _
    | unary =>
      rcases children with _ | ⟨op, _ | ⟨operand, rest⟩⟩
      · exact .throw _
      · exact .throw _
      · rw [checkExpr]
        exact (ih operand (by simp)).bind fun _ => .reading _
    | arrayLit =>
      rw [checkExpr]
      exact (reads_checkExprs ih).bind fun _ => .reading _
    | subscript =>
      rcases children with _ | ⟨base, _ | ⟨index, rest⟩⟩
      · exact .throw _
      · exact .throw _
      · rw [checkExpr]
        exact (ih base (by simp)).bind fun _ => (ih index (by simp)).bind fun _ => .reading _
    | call =>
      rw [checkExpr]
      exact (reads_checkCall ih span).bind fun _ => .pure _
    | _ => exact .throw _

section

variable {β : Type} {b : β} {ctx ctx' : Context}

/-- What follows an expression starts with the context that the expression was checked in. -/
theorem checkExpr_bind_eq_ok {n : Node} {f : Expr → CheckM β} :
    (checkExpr n >>= f) ctx = .ok b ctx' ↔
      ∃ e, checkExpr n ctx = .ok e ctx ∧ f e ctx = .ok b ctx' :=
  (reads_checkExpr n).bind_eq_ok

theorem checkExprs_bind_eq_ok {ns : List Node} {f : List Expr → CheckM β} :
    (checkExprs ns >>= f) ctx = .ok b ctx' ↔
      ∃ es, checkExprs ns ctx = .ok es ctx ∧ f es ctx = .ok b ctx' :=
  (reads_checkExprs fun n _ => reads_checkExpr n).bind_eq_ok

theorem checkArgs_bind_eq_ok {function : String} {index : Nat} {params : List Variable}
    {ns : List Node} {f : List Expr → CheckM β} :
    (checkArgs function index params ns >>= f) ctx = .ok b ctx' ↔
      ∃ es, checkArgs function index params ns ctx = .ok es ctx ∧ f es ctx = .ok b ctx' :=
  (reads_checkArgs (fun n _ => reads_checkExpr n) _ _ _).bind_eq_ok

theorem checkCall_bind_eq_ok {span : Span} {ns : List Node} {f : Signature × List Expr → CheckM β} :
    (checkCall span ns >>= f) ctx = .ok b ctx' ↔
      ∃ call, checkCall span ns ctx = .ok call ctx ∧ f call ctx = .ok b ctx' :=
  (reads_checkCall (fun n _ => reads_checkExpr n) span).bind_eq_ok

end

/-! ## Parts of statements -/

theorem reads_checkTarget (n : Node) : Reads (checkTarget n) :=
  .ite (reads_checkExpr n) (.throw _)

theorem reads_checkAssign (span : Span) (children : List Node) :
    Reads (checkAssign span children) := by
  rcases children with _ | ⟨target, _ | ⟨source, rest⟩⟩
  · exact .throw _
  · exact (reads_checkTarget target).bind fun _ => .throw _
  · refine (reads_checkTarget target).bind fun _ => (reads_checkExpr source).bind fun _ => ?_
    exact (Reads.reading _).bind fun _ => .pure _

theorem reads_checkCondition (test : Node) : Reads (checkCondition test) :=
  (reads_checkExpr test).bind fun _ => (Reads.reading _).bind fun _ => .pure _

theorem reads_checkResult (span : Span) (children : List Node) :
    Reads (checkResult span children) := by
  have hget : Reads (get : CheckM Context) := fun _ => rfl
  have hvalue : Reads (checkValue children) := by
    cases children with
    | nil => exact .pure none
    | cons n rest => exact (reads_checkExpr n).bind fun _ => .pure _
  refine hget.bind fun ctx => ?_
  cases ctx.returnTypes with
  | nil => exact .throw _
  | cons expected outer =>
    exact hvalue.bind fun _ => (Reads.reading _).bind fun _ => .pure _

end Scriptlet
