import Scriptlet.Proofs.Script.Numbering

/-!
Drafts in use. Names are declared and read off a draft, lines are added and written deeper, in any
order. The names that are given to the declared ones are all different, whatever characters they are
made of, and at every moment a name stands for what was given at its last declaration.

Statements are written by nothing else: `Draft.body` is a session of its own.
-/

namespace Scriptlet

open Renaming

namespace Draft

/-- A use of a draft. What is read off it or added to it may be made of the names as they stand. -/
inductive Action where
  | declare (name : String)
  | read (text : Renaming → String)
  | line (text : Renaming → String)
  | deeper (actions : List Action)

/-- A declaration that was made: the name, and the one that was given for it. -/
structure Naming where
  name : String
  given : String
deriving DecidableEq, Repr

/-- What was given at the last declaration of the name. -/
def last? (log : List Naming) (name : String) : Option String :=
  (log.findRev? (·.name == name)).map Naming.given

namespace Action

mutual

/-- The declarations that are made, and the draft after them. -/
def run : Action → Draft → List Naming × Draft
  | declare name, d => ([⟨name, (d.declare name).1⟩], (d.declare name).2)
  | read _, d => ([], d)
  | line text, d => ([], d.line (text d.names))
  | deeper actions, d => d.deeper (runAll actions)

def runAll : List Action → Draft → List Naming × Draft
  | [], d => ([], d)
  | a :: as, d => ((a.run d).1 ++ (runAll as (a.run d).2).1, (runAll as (a.run d).2).2)

end

/-- `Meets actions d log d'`: while the actions are run from `d`, there is a moment between two of
them at which the draft is `d'`, and until then the declarations of `log` were made. -/
inductive Meets : List Action → Draft → List Naming → Draft → Prop where
  | start {as : List Action} {d : Draft} : Meets as d [] d
  | next {a : Action} {as : List Action} {d d' : Draft} {log : List Naming} :
      Meets as (a.run d).2 log d' → Meets (a :: as) d ((a.run d).1 ++ log) d'
  | deeper {actions as : List Action} {d d' : Draft} {log : List Naming} :
      Meets actions { d with depth := d.depth + 1 } log d' → Meets (.deeper actions :: as) d log d'

end Action

/-! ## What a session does to the names -/

theorem last?_append (log log' : List Naming) (x : String) :
    last? (log ++ log') x = (last? log' x).or (last? log x) := by
  simp only [last?, List.findRev?_eq_find?_reverse, List.reverse_append, List.find?_append,
    Option.map_or]

theorem last?_singleton (n : Naming) (x : String) :
    last? [n] x = if n.name = x then some n.given else none := by
  by_cases h : n.name = x
  · simp [last?, List.findRev?, h]
  · simp [last?, List.findRev?, h]

/-- After the declarations `before`, those of `log` have led to the tables `r`: each one was given
the number next to those that its name had, and a name stands for what was given last. -/
structure Extends (before : List String) (log : List Naming) (r : Renaming) : Prop where
  records : r.Records (before ++ log.map Naming.name)
  given : log.map Naming.given = numberAfter before (log.map Naming.name)
  resolve : ∀ x, r.resolve x = (last? log x).getD (nameAfter before x)

namespace Extends

variable {before : List String} {r r' : Renaming} {log log' : List Naming}

theorem refl (h : r.Records before) : Extends before [] r where
  records := by rwa [List.map_nil, List.append_nil]
  given := rfl
  resolve := h.resolve

theorem trans (h : Extends before log r) (h' : Extends (before ++ log.map Naming.name) log' r') :
    Extends before (log ++ log') r' where
  records := by
    rw [List.map_append, ← List.append_assoc]
    exact h'.records
  given := by
    rw [List.map_append, List.map_append, numberAfter_append, h.given, h'.given]
  resolve x := by
    rw [h'.resolve, ← h.records.resolve, h.resolve, last?_append]
    cases last? log' x <;> rfl

theorem declare (h : r.Records before) (name : String) :
    Extends before [⟨name, (r.declare name).1⟩] (r.declare name).2 where
  records := h.declare name
  given := by
    rw [h.given, nameAfter_append_self]
    rfl
  resolve x := by
    rw [last?_singleton]
    split
    · next hx =>
      subst hx
      exact resolve_declare_self r _
    · next hx =>
      rw [resolve_declare_of_ne r hx, h.resolve]
      rfl

end Extends

namespace Action

mutual

/-- One action adds to the names what it logs. -/
theorem extends_run {before : List String} : ∀ (a : Action) (d : Draft), d.names.Records before →
    Extends before (a.run d).1 (a.run d).2.names
  | declare name, d, h => by
    rw [run]
    exact .declare h name
  | read _, d, h => by
    rw [run]
    exact .refl h
  | line _, d, h => by
    rw [run]
    exact .refl h
  | deeper actions, d, h => by
    rw [run]
    exact extends_runAll actions { d with depth := d.depth + 1 } h

/-- A session adds to the names what it logs, in its order. -/
theorem extends_runAll {before : List String} : ∀ (as : List Action) (d : Draft),
    d.names.Records before → Extends before (runAll as d).1 (runAll as d).2.names
  | [], d, h => by
    rw [runAll]
    exact .refl h
  | a :: as, d, h => by
    have ha := extends_run a d h
    rw [runAll]
    exact ha.trans (extends_runAll as _ ha.records)

end

theorem Meets.extends {as : List Action} {d d' : Draft} {log : List Naming}
    (h : Meets as d log d') {before : List String} (hd : d.names.Records before) :
    Extends before log d'.names := by
  induction h generalizing before with
  | start => exact .refl hd
  | @next a _ d _ _ _ ih =>
    have ha := extends_run a d hd
    exact ha.trans (ih ha.records)
  | deeper _ ih => exact ih hd

end Action

end Draft

/-! ## Statements as sessions -/

open Draft Action

namespace Stmt

mutual

/-- How a statement is written: a variable is declared before its initializer is looked at, and a
block stands one level deeper between two lines. -/
def actions : Stmt → List Action
  | varDec v initializer => [.declare v.name,
      .line fun r => "let " ++ r.resolve v.name ++ " = " ++ initializer.script r ++ ";"]
  | assign target source => [.line fun r => target.script r ++ " = " ++ source.script r ++ ";"]
  | print argument => [.line fun r => "console.log(" ++ argument.script r ++ ");"]
  | result none => [.line fun _ => "return ;"]
  | result (some e) => [.line fun r => "return " ++ e.script r ++ ";"]
  | call name args _ => [.line fun r => Expr.callScript name (Expr.scripts r args) ++ ";"]
  | funDec f body => [
      .line fun _ => "function " ++ f.name ++ "(" ++
        ", ".intercalate (f.params.map Variable.name) ++ ") \x7b",
      .deeper (actionsAll body), .line fun _ => "\x7d"]
  | loop test body => [.line fun r => "while (" ++ test.script r ++ ") \x7b",
      .deeper (actionsAll body), .line fun _ => "\x7d"]

def actionsAll : List Stmt → List Action
  | [] => []
  | s :: ss => s.actions ++ actionsAll ss

end

end Stmt

namespace Draft

theorem runAll_append (as bs : List Action) (d : Draft) :
    (runAll (as ++ bs) d).2 = (runAll bs (runAll as d).2).2 := by
  induction as generalizing d with
  | nil => rfl
  | cons a as ih => exact ih (a.run d).2

theorem body_nil (d : Draft) : d.body [] = d := by
  simp [body, Stmt.emitAll]

theorem body_cons (d : Draft) (s : Stmt) (ss : List Stmt) :
    d.body (s :: ss) = (d.body [s]).body ss := by
  simp [body, Stmt.emitAll]

/-- A block between two lines. -/
theorem runAll_block (d : Draft) (first : Renaming → String) (last : String) (ss : List Stmt)
    (h : ∀ d, (runAll (Stmt.actionsAll ss) d).2 = d.body ss) :
    (runAll [.line first, .deeper (Stmt.actionsAll ss), .line fun _ => last] d).2 =
      let e := Stmt.emitAll (d.depth + 1) d.names ss
      { d with
        lines := d.lines ++ (indented d.depth (first d.names) :: e.lines ++ [indented d.depth last])
        names := e.names } := by
  simp [runAll, run, deeper, line, h, body]

/-- Statements are written by declaring their variables and adding their lines. -/
theorem runAll_actionsAll (ss : List Stmt) (d : Draft) :
    (runAll (Stmt.actionsAll ss) d).2 = d.body ss := by
  induction ss using Stmt.induction
    (P := fun s => ∀ d, (runAll s.actions d).2 = d.body [s]) generalizing d with
  | step s ih d =>
    cases s with
    | loop test body =>
      refine (runAll_block d _ _ body ih).trans ?_
      simp [Draft.body, Stmt.emitAll, Stmt.emit]
    | funDec f body =>
      refine (runAll_block d _ _ body ih).trans ?_
      simp [Draft.body, Stmt.emitAll, Stmt.emit]
    | varDec v initializer =>
      -- the line asks for the name that has just been given
      have hgiven := resolve_declare_self d.names v.name
      simp only [Stmt.actions, runAll, run, Draft.declare, line, hgiven]
      rfl
    | result expression => cases expression <;> rfl
    | _ => rfl
  | nil => exact d.body_nil.symm
  | cons s ss hs ih => rw [Stmt.actionsAll, runAll_append, hs, ih, ← body_cons]

/-- The names that are given in a session are all different, and at each moment of it a name stands
for what was given at its last declaration, or for itself if there was none. Statements are written
in such sessions. -/
theorem names_of_session :
    (∀ as log d, Meets as .empty log d → (log.map Naming.given).Nodup ∧
      ∀ x, d.names.resolve x = (last? log x).getD x) ∧
    ∀ (ss : List Stmt) (d : Draft), d.body ss = (runAll (Stmt.actionsAll ss) d).2 := by
  refine ⟨fun as log d h => ?_, fun ss d => (runAll_actionsAll ss d).symm⟩
  have hlog := h.extends .empty
  refine ⟨?_, hlog.resolve⟩
  rw [hlog.given]
  exact nodup_numberAfter _ _

/-- Names that look like given ones, at a moment inside a deeper level. -/
theorem names_of_session_lookalikes :
    ∃ log d, Meets [.declare "x", .declare "x_1", .deeper [.declare "x", .line (·.resolve "x")]]
        .empty log d ∧
      log = [⟨"x", "x_1"⟩, ⟨"x_1", "x_1_1"⟩, ⟨"x", "x_2"⟩] ∧ (log.map Naming.given).Nodup ∧
      d.names.resolve "x" = "x_2" ∧ d.names.resolve "x_1" = "x_1_1" ∧
      d.names.resolve "x_2" = "x_2" := by
  have hmeets : Meets [.declare "x", .declare "x_1", .deeper [.declare "x", .line (·.resolve "x")]]
      .empty _ _ := .next (.next (.deeper (.next .start)))
  obtain ⟨hnodup, hresolve⟩ := names_of_session.1 _ _ _ hmeets
  refine ⟨_, _, hmeets, by decide +kernel, hnodup, ?_⟩
  rw [hresolve, hresolve, hresolve]
  decide +kernel

end Draft

end Scriptlet
