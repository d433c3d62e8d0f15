import Scriptlet.Proofs.Program.Sites
import Scriptlet.Script.Emission

/-!
The script of a program is the program with its variables renamed, written as it stands. A variable
is renamed by the number of its declarations before it, wherever in the program they are.
-/

namespace Scriptlet

/-! ## Renamed programs -/

/-- What a name becomes after some declarations. -/
def nameAfter (before : List String) (name : String) : String :=
  if before.count name = 0 then name else name ++ "_" ++ toString (before.count name)

def Variable.renamed (before : List String) (v : Variable) : Variable :=
  ⟨nameAfter before v.name, v.ty⟩

namespace Expr

mutual

/-- The expression after some declarations, with every variable renamed. -/
def renamed (before : List String) : Expr → Expr
  | literal value => literal value
  | var v => var (v.renamed before)
  | binary op left right ty => binary op (left.renamed before) (right.renamed before) ty
  | unary op operand ty => unary op (operand.renamed before) ty
  | array elements ty => array (renamedAll before elements) ty
  | subscript base index ty => subscript (base.renamed before) (index.renamed before) ty
  | call name args ty => call name (renamedAll before args) ty

def renamedAll (before : List String) : List Expr → List Expr
  | [] => []
  | e :: es => e.renamed before :: renamedAll before es

end

end Expr

namespace Stmt

mutual

/-- The statement after some declarations. Its own declarations count in the order of the text, and
the one of a `let` already in the initializer. -/
def renamed (before : List String) : Stmt → Stmt
  | print argument => print (argument.renamed before)
  | varDec v initializer =>
    varDec (v.renamed (before ++ [v.name])) (initializer.renamed (before ++ [v.name]))
  | assign target source => assign (target.renamed before) (source.renamed before)
  | loop test body => loop (test.renamed before) (renamedAll before body)
  | funDec signature body => funDec signature (renamedAll before body)
  | result expression => result (expression.map (Expr.renamed before))
  | call name args ty => call name (Expr.renamedAll before args) ty

def renamedAll (before : List String) : List Stmt → List Stmt
  | [] => []
  | s :: ss => s.renamed before :: renamedAll (before ++ s.lets) ss

end

end Stmt

def Program.renamed (p : Program) : Program := ⟨Stmt.renamedAll [] p.statements⟩

/-! ## Programs as they stand -/

namespace Expr

mutual

/-- The text of an expression, with its names as they are. A minus sign stands apart from another
sign and before an operation in parentheses. -/
def plain : Expr → String
  | literal value => value.script
  | var v => v.name
  | binary op left right _ => left.plain ++ " " ++ op.symbol ++ " " ++ right.plain
  | unary .not operand _ => "!" ++ operand.plain
  | unary .negate operand _ =>
    match operand with
    | unary .. => "- " ++ operand.plain
    | binary .. => "-(" ++ operand.plain ++ ")"
    | _ => "-" ++ operand.plain
  | array elements _ => "[" ++ ", ".intercalate (plainAll elements) ++ "]"
  | subscript base index _ => base.plain ++ "[" ++ index.plain ++ "]"
  | call name args _ => name ++ "(" ++ ", ".intercalate (plainAll args) ++ ")"

def plainAll : List Expr → List String
  | [] => []
  | e :: es => e.plain :: plainAll es

end

end Expr

namespace Stmt

mutual

/-- The lines of a statement, with its names as they are. The lines of a body are written two blanks
further right than those around it. -/
def plain : Stmt → List String
  | print argument => ["console.log(" ++ argument.plain ++ ");"]
  | varDec v initializer => ["let " ++ v.name ++ " = " ++ initializer.plain ++ ";"]
  | assign target source => [target.plain ++ " = " ++ source.plain ++ ";"]
  | result none => ["return ;"]
  | result (some e) => ["return " ++ e.plain ++ ";"]
  | call name args _ => [name ++ "(" ++ ", ".intercalate (Expr.plainAll args) ++ ");"]
  | loop test body =>
    ["while (" ++ test.plain ++ ") \x7b"] ++ (plainAll body).map ("  " ++ ·) ++ ["\x7d"]
  | funDec f body =>
    ["function " ++ f.name ++ "(" ++ ", ".intercalate (f.params.map Variable.name) ++ ") \x7b"] ++
      (plainAll body).map ("  " ++ ·) ++ ["\x7d"]

def plainAll : List Stmt → List String
  | [] => []
  | s :: ss => s.plain ++ plainAll ss

end

end Stmt

/-- The text of a program, with its names as they are. -/
def Program.plain (p : Program) : String := "\n".intercalate (Stmt.plainAll p.statements)

/-! ## The tables -/

/-- The tables stand as the declarations have left them: every name with the number of its
declarations, and with the name that it has become. -/
structure Renaming.Records (r : Renaming) (before : List String) : Prop where
  count : ∀ x, r.count x = before.count x
  resolve : ∀ x, r.resolve x = nameAfter before x

/-- A further declaration of a name has the next number. -/
theorem nameAfter_append_self (before : List String) (x : String) :
    nameAfter (before ++ [x]) x = x ++ "_" ++ toString (before.count x + 1) := by
  have hcount : (before ++ [x]).count x = before.count x + 1 := by simp
  rw [nameAfter, hcount, if_neg (Nat.succ_ne_zero _)]

theorem nameAfter_append_of_ne (before : List String) {x y : String} (h : y ≠ x) :
    nameAfter (before ++ [y]) x = nameAfter before x := by
  have hcount : (before ++ [y]).count x = before.count x := by simp [h]
  rw [nameAfter, hcount, nameAfter]

namespace Renaming.Records

variable {r : Renaming} {before : List String}

theorem empty : Renaming.empty.Records [] := ⟨fun _ => rfl, fun _ => rfl⟩

/-- The name that is given at a declaration counts it. -/
theorem given (h : r.Records before) (x : String) :
    (r.declare x).1 = nameAfter (before ++ [x]) x := by
  rw [nameAfter_append_self, ← h.count]
  rfl

/-- A declaration changes the entries of its own name in both tables, and no other. -/
theorem declare (h : r.Records before) (x : String) :
    (r.declare x).2.Records (before ++ [x]) := by
  refine ⟨fun y => ?_, fun y => ?_⟩
  · by_cases hy : x = y
    · subst hy
      rw [count_declare_self, h.count]
      simp
    · rw [count_declare_of_ne r hy, h.count]
      simp [hy]
  · by_cases hy : x = y
    · subst hy
      rw [resolve_declare_self, h.given]
    · rw [resolve_declare_of_ne r hy, h.resolve, nameAfter_append_of_ne before hy]

end Renaming.Records

/-! ## The script -/

namespace Expr

variable {r : Renaming} {before : List String}

/-- A minus sign is written by the kind of its operand, which renaming keeps. -/
theorem plain_negate (e : Expr) (t : Ty) :
    (unary .negate (e.renamed before) t).plain = negation e (e.renamed before).plain := by
  cases e <;> simp only [renamed, plain, negation]

theorem scripts_eq_plainAll {es : List Expr}
    (h : ∀ e ∈ es, e.script r = (e.renamed before).plain) :
    scripts r es = plainAll (renamedAll before es) := by
  induction es with
  | nil => rfl
  | cons e es ih =>
    obtain ⟨he, hes⟩ := List.forall_mem_cons.1 h
    rw [renamedAll, scripts, plainAll, he, ih hes]

/-- With tables that stand as the declarations have left them, an expression is written as it
stands once it is renamed. -/
theorem script_eq_plain (hr : r.Records before) (e : Expr) :
    e.script r = (e.renamed before).plain := by
  induction e using Expr.induction with
  | literal value => rfl
  | var v => exact hr.resolve v.name
  | binary op left right t ihl ihr => rw [script, renamed, plain, ihl, ihr]
  | unary op operand t ih =>
    cases op with
    | negate => rw [script, renamed, plain_negate, ih]
    | not => rw [script, renamed, plain, ih]
  | array elements t ih => rw [script, renamed, plain, scripts_eq_plainAll ih]
  | subscript base index t ihb ihi => rw [script, renamed, plain, ihb, ihi]
  | call name args t ih => rw [script, callScript, renamed, plain, scripts_eq_plainAll ih]

end Expr

theorem indented_succ (depth : Nat) (line : String) :
    indented (depth + 1) line = indented depth ("  " ++ line) := by
  have hmargin : String.ofList (List.replicate (2 * (depth + 1)) ' ') =
      String.ofList (List.replicate (2 * depth) ' ') ++ "  " := by
    rw [Nat.mul_succ, List.replicate_add, String.ofList_append]
    rfl
  rw [indented, indented, hmargin, String.append_assoc]

theorem map_indented_succ (depth : Nat) (lines : List String) :
    lines.map (indented (depth + 1)) = (lines.map ("  " ++ ·)).map (indented depth) := by
  rw [List.map_map]
  exact List.map_congr_left fun line _ => indented_succ depth line

/-- The lines are written at the depth, and the tables are left with the declarations. -/
structure Emitted.Writes (out : Emitted) (depth : Nat) (lines : List String)
    (declared : List String) : Prop where
  lines : out.lines = lines.map (indented depth)
  names : out.names.Records declared

namespace Stmt

variable {r : Renaming} {before : List String}

/-- A statement is written as it stands once it is renamed, if the block inside is so. -/
theorem writes_emit_of_contents (hr : r.Records before) (depth : Nat) (s : Stmt)
    (hbody : (emitAll (depth + 1) r s.contents).Writes (depth + 1)
      (plainAll (renamedAll before s.contents)) (before ++ letsAll s.contents)) :
    (s.emit depth r).Writes depth (s.renamed before).plain (before ++ s.lets) := by
  have hexpr := Expr.script_eq_plain hr
  have hsame : r.Records (before ++ []) := by rwa [List.append_nil]
  cases s with
  | print argument =>
    refine ⟨?_, hsame⟩
    rw [emit, hexpr, renamed, plain]
    rfl
  | varDec v initializer =>
    -- the declaration counts in its own initializer
    have hv := hr.declare v.name
    refine ⟨?_, hv⟩
    rw [renamed, plain, Variable.renamed, ← hr.given, ← Expr.script_eq_plain hv]
    rfl
  | assign target source =>
    refine ⟨?_, hsame⟩
    rw [emit, hexpr, hexpr, renamed, plain]
    rfl
  | loop test body =>
    obtain ⟨hlines, hnames⟩ := hbody
    rw [contents] at hlines hnames
    refine ⟨?_, hnames⟩
    simp only [emit, hexpr, hlines, renamed, plain, map_indented_succ, List.map_append,
      List.map_cons, List.map_nil, List.cons_append, List.nil_append]
  | funDec f body =>
    obtain ⟨hlines, hnames⟩ := hbody
    rw [contents] at hlines hnames
    refine ⟨?_, hnames⟩
    simp only [emit, hlines, renamed, plain, map_indented_succ, List.map_append,
      List.map_cons, List.map_nil, List.cons_append, List.nil_append]
  | result expression =>
    refine ⟨?_, hsame⟩
    cases expression with
    | none => rfl
    | some e =>
      rw [emit, renamed, Option.map_some, plain, ← hexpr]
      rfl
  | call name args ty =>
    have hargs := Expr.scripts_eq_plainAll fun e (_ : e ∈ args) => hexpr e
    have hclose : ");" = ")" ++ ";" := rfl
    refine ⟨?_, hsame⟩
    rw [emit, Expr.callScript, hargs, renamed, plain, hclose, ← String.append_assoc]
    rfl

/-- The tables are in step with the declarations of the walk at every depth, so that statements are
written as they stand once they are renamed. -/
theorem writes_emitAll (hr : r.Records before) (depth : Nat) (ss : List Stmt) :
    (emitAll depth r ss).Writes depth (plainAll (renamedAll before ss)) (before ++ letsAll ss) := by
  induction ss using Stmt.induction (P := fun s => ∀ r before depth, Renaming.Records r before →
      (s.emit depth r).Writes depth (s.renamed before).plain (before ++ s.lets))
    generalizing r before depth with
  | step s ih r before depth hr => exact writes_emit_of_contents hr depth s (ih hr (depth + 1))
  | nil =>
    refine ⟨rfl, ?_⟩
    rwa [letsAll, List.append_nil]
  | cons s ss hs ih =>
    obtain ⟨hlines, hnames⟩ := hs r before depth hr
    obtain ⟨hrest, hlast⟩ := ih hnames depth
    refine ⟨?_, ?_⟩
    · rw [emitAll, hlines, hrest, renamedAll, plainAll, List.map_append]
    · rwa [letsAll, ← List.append_assoc]

/-- After a statement is emitted, the tables record its declarations too. -/
theorem records_emit (hr : r.Records before) (depth : Nat) (s : Stmt) :
    (s.emit depth r).names.Records (before ++ s.lets) :=
  (writes_emit_of_contents hr depth s (writes_emitAll hr _ _)).names

end Stmt

/-- The script is the renamed program as it stands. -/
theorem Program.script_eq_plain_renamed (p : Program) : p.script = p.renamed.plain := by
  have hmargin : ∀ line, indented 0 line = line := fun line => String.empty_append
  have hlines := (Stmt.writes_emitAll .empty 0 p.statements).lines
  rw [script, hlines, List.map_id'' hmargin, plain, renamed]

/-! ## What renaming keeps -/

def Mention.renamed (before : List String) : Mention → Mention
  | var v => var (v.renamed before)
  | call name count ty => call name count ty

namespace Expr

theorem length_renamedAll (before : List String) (es : List Expr) :
    (renamedAll before es).length = es.length := by
  induction es with
  | nil => rfl
  | cons e es ih => rw [renamedAll, List.length_cons, List.length_cons, ih]

theorem mentionsAll_renamedAll {before : List String} {es : List Expr}
    (h : ∀ e ∈ es, (e.renamed before).mentions = e.mentions.map (Mention.renamed before)) :
    mentionsAll (renamedAll before es) = (mentionsAll es).map (Mention.renamed before) := by
  induction es with
  | nil => rfl
  | cons e es ih =>
    obtain ⟨he, hes⟩ := List.forall_mem_cons.1 h
    rw [renamedAll, mentionsAll, mentionsAll, he, ih hes, List.map_append]

theorem mentions_renamed (before : List String) (e : Expr) :
    (e.renamed before).mentions = e.mentions.map (Mention.renamed before) := by
  induction e using Expr.induction with
  | literal value => rfl
  | var v => rfl
  | binary op left right t ihl ihr =>
    rw [renamed, mentions, mentions, ihl, ihr, List.map_append]
  | unary op operand t ih => exact ih
  | array elements t ih => exact mentionsAll_renamedAll ih
  | subscript base index t ihb ihi =>
    rw [renamed, mentions, mentions, ihb, ihi, List.map_append]
  | call name args t ih =>
    rw [renamed, mentions, mentions, mentionsAll_renamedAll ih, length_renamedAll, List.map_cons]
    rfl

/-- Renaming changes the variables of an expression one by one. -/
theorem vars_renamed (before : List String) (e : Expr) :
    (e.renamed before).vars = e.vars.map (Variable.renamed before) := by
  rw [vars, mentions_renamed, List.filterMap_map, vars, List.map_filterMap]
  congr 1
  funext m
  cases m <;> rfl

theorem callees_renamed (before : List String) (e : Expr) :
    (e.renamed before).callees = e.callees := by
  rw [callees, mentions_renamed, List.filterMap_map, callees]
  congr 1
  funext m
  cases m <;> rfl

end Expr

namespace Stmt

theorem exprs_renamed (π : Site) (s : Stmt) :
    (s.renamed π.before).exprs = s.exprs.map (Expr.renamed (π.inside s).before) := by
  cases s with
  | result expression => cases expression <;> rfl
  | _ => rfl

theorem contents_renamed (before : List String) (s : Stmt) :
    (s.renamed before).contents = renamedAll before s.contents := by
  cases s <;> rfl

theorem function?_renamed (before : List String) (s : Stmt) :
    (s.renamed before).function? = s.function? := by
  cases s <;> rfl

theorem heads_renamedAll (before : List String) (ss : List Stmt) :
    heads (renamedAll before ss) = heads ss := by
  induction ss generalizing before with
  | nil => rfl
  | cons s ss ih =>
    simp only [renamedAll, heads, List.filterMap_cons, function?_renamed]
    simp only [heads] at ih
    rw [ih]

theorem functionsAll_renamedAll (before : List String) (ss : List Stmt) :
    functionsAll (renamedAll before ss) = functionsAll ss := by
  induction ss using Stmt.induction (P := fun s => ∀ before,
      (s.renamed before).functions = s.functions) generalizing before with
  | step s ih before => rw [functions_eq, functions_eq, function?_renamed, contents_renamed, ih]
  | nil => rfl
  | cons s ss hs ih => rw [renamedAll, functionsAll, functionsAll, hs, ih]

end Stmt

/-- Two sites with the same functions around. -/
structure Site.Alike (π π' : Site) : Prop where
  known : π'.known = π.known
  inSight : π'.inSight = π.inSight
  ended : π'.ended = π.ended

namespace Site.Alike

variable {π π' : Site}

theorem inside (h : π.Alike π') (s t : Stmt) : (π.inside s).Alike (π'.inside t) := by
  have hs : π.Alike (π.inside s) := by cases s <;> exact ⟨rfl, rfl, rfl⟩
  have ht : π'.Alike (π'.inside t) := by cases t <;> exact ⟨rfl, rfl, rfl⟩
  exact ⟨(ht.known.trans h.known).trans hs.known.symm,
    (ht.inSight.trans h.inSight).trans hs.inSight.symm,
    (ht.ended.trans h.ended).trans hs.ended.symm⟩

theorem enter (h : π.Alike π') (before : List String) (s : Stmt) :
    (π.enter s).Alike (π'.enter (s.renamed before)) := by
  have hsight : ∀ body, Stmt.heads (Stmt.renamedAll before body) ++ π'.inSight =
      Stmt.heads body ++ π.inSight := fun body => by rw [Stmt.heads_renamedAll, h.inSight]
  cases s with
  | loop test body => exact ⟨h.known, hsight body, h.ended⟩
  | funDec f body => exact ⟨congrArg (· ++ [f]) h.known, hsight body, h.ended⟩
  | _ => exact h

theorem after (h : π.Alike π') (before : List String) (s : Stmt) :
    (π.after s).Alike (π'.after (s.renamed before)) := by
  have hfunctions := Stmt.functionsAll_renamedAll before s.contents
  rw [← Stmt.contents_renamed] at hfunctions
  refine ⟨?_, h.inSight, ?_⟩
  · simp only [Site.after, Stmt.functions_eq, Stmt.function?_renamed, hfunctions, h.known]
  · simp only [Site.after, hfunctions, h.ended]

end Site.Alike

/-- An expression of a program, and what it is after renaming. -/
structure Visit.Renames (v v' : Visit) : Prop where
  expr : v'.expr = v.expr.renamed v.site.before
  site : v.site.Alike v'.site

theorem Site.before_enter_eq (π : Site) (s : Stmt) : (π.enter s).before = π.before := by
  cases s <;> rfl

namespace Stmt

/-- A renamed program is visited at the same places, in the same order. -/
theorem visitsAll_renamedAll {π π' : Site} (h : π.Alike π') (ss : List Stmt) :
    List.Forall₂ Visit.Renames (visitsAll π ss) (visitsAll π' (renamedAll π.before ss)) := by
  induction ss using Stmt.induction (P := fun s => ∀ π π' : Site, π.Alike π' →
      List.Forall₂ Visit.Renames (s.visits π) ((s.renamed π.before).visits π'))
    generalizing π π' with
  | step s ih π π' h =>
    rw [visits_eq, visits_eq, exprs_renamed, contents_renamed, List.map_map]
    refine List.rel_append ?_ ?_
    · rw [List.forall₂_map_left_iff, List.forall₂_map_right_iff, List.forall₂_same]
      exact fun e _ => ⟨rfl, h.inside s _⟩
    · have hbody := ih (h.enter π.before s)
      rwa [Site.before_enter_eq] at hbody
  | nil => exact .nil
  | cons s ss hs ih =>
    rw [renamedAll, visitsAll, visitsAll]
    exact List.rel_append (hs π π' h) (ih (h.after π.before s))

end Stmt

namespace Program

variable {p : Program}

theorem visits_renamed (p : Program) :
    List.Forall₂ Visit.Renames p.visits p.renamed.visits := by
  apply Stmt.visitsAll_renamedAll
  refine ⟨rfl, ?_, rfl⟩
  simp [start, Site.inSight, renamed, Stmt.heads_renamedAll]

/-- A variable is renamed by the number of its declarations before the reference. -/
theorem references_renamed (p : Program) :
    List.Forall₂ (fun r r' => r'.var = r.var.renamed r.site.before)
      p.references p.renamed.references := by
  refine List.rel_flatMap p.visits_renamed fun v v' h => ?_
  rw [h.expr, Expr.vars_renamed, List.map_map, List.forall₂_map_left_iff,
    List.forall₂_map_right_iff, List.forall₂_same]
  exact fun x _ => rfl

/-- A call keeps its function, and the functions around. -/
theorem calls_renamed (p : Program) :
    List.Forall₂ (fun c c' => c'.name = c.name ∧ c.site.Alike c'.site) p.calls p.renamed.calls := by
  refine List.rel_flatMap p.visits_renamed fun v v' h => ?_
  rw [h.expr, Expr.callees_renamed, List.forall₂_map_left_iff, List.forall₂_map_right_iff,
    List.forall₂_same]
  exact fun x _ => ⟨rfl, h.site⟩

theorem functions_renamed (p : Program) : p.renamed.functions = p.functions :=
  Stmt.functionsAll_renamedAll [] p.statements

end Program

end Scriptlet
