import Scriptlet.Proofs.Script.Renamed

/-!
Numbering apart from writing. A walk through a program comes to the places where the name of a
variable stands, a declaration before its initializer and a body before what follows it. The number
of a place is known from the walk up to it, and the script is what is written of the program with
its numbers filled in, by a writer that keeps no names.
-/

namespace Scriptlet

/-! ## Walks -/

/-- A place where the name of a variable stands. -/
inductive Occurrence where
  | declaration (name : String)
  | reference (name : String)

namespace Occurrence

def declared? : Occurrence → Option String
  | declaration name => some name
  | reference _ => none

/-- The place with the name that it has after some declarations. -/
def renamed (before : List String) : Occurrence → Occurrence
  | declaration name => declaration (nameAfter before name)
  | reference name => reference (nameAfter before name)

/-- The names that are declared on a walk, in order. -/
def declaredIn (os : List Occurrence) : List String := os.filterMap declared?

/-- The places of a walk after some declarations, a declaration counting at its own place. -/
def numberFrom (before : List String) : List Occurrence → List Occurrence
  | [] => []
  | o :: os =>
    o.renamed (before ++ declaredIn [o]) :: numberFrom (before ++ declaredIn [o]) os

theorem declaredIn_append (os os' : List Occurrence) :
    declaredIn (os ++ os') = declaredIn os ++ declaredIn os' := List.filterMap_append

theorem declaredIn_cons (o : Occurrence) (os : List Occurrence) :
    declaredIn (o :: os) = declaredIn [o] ++ declaredIn os := declaredIn_append [o] os

/-- The occurrences behind a list are numbered after the declarations in it. -/
theorem numberFrom_append (before : List String) (os os' : List Occurrence) :
    numberFrom before (os ++ os') =
      numberFrom before os ++ numberFrom (before ++ declaredIn os) os' := by
  induction os generalizing before with
  | nil => rw [List.nil_append, numberFrom, List.nil_append, declaredIn, List.filterMap_nil,
      List.append_nil]
  | cons o os ih =>
    rw [List.cons_append, numberFrom, numberFrom, ih, declaredIn_cons o os, List.append_assoc,
      List.cons_append]

/-- The number of a place is known from the walk up to it. -/
theorem getElem?_numberFrom (before : List String) (os : List Occurrence) (i : Nat) :
    (numberFrom before os)[i]? =
      os[i]?.map (renamed (before ++ declaredIn (os.take (i + 1)))) := by
  induction os generalizing before i with
  | nil => rfl
  | cons o os ih =>
    rw [numberFrom, List.take_succ_cons]
    cases i with
    | zero => rfl
    | succ i =>
      rw [List.getElem?_cons_succ, List.getElem?_cons_succ, ih, declaredIn_cons o (os.take (i + 1)),
        List.append_assoc]

end Occurrence

open Occurrence (declaredIn numberFrom numberFrom_append)

/-! ## The places of a program -/

namespace Expr

def occurrences (e : Expr) : List Occurrence := e.vars.map fun v => .reference v.name

def occurrencesAll (es : List Expr) : List Occurrence := es.flatMap occurrences

theorem occurrences_binary (op : BinaryOp) (left right : Expr) (t : Ty) :
    (binary op left right t).occurrences = left.occurrences ++ right.occurrences := by
  simp only [occurrences, vars, mentions, List.filterMap_append, List.map_append]

theorem occurrences_subscript (base index : Expr) (t : Ty) :
    (subscript base index t).occurrences = base.occurrences ++ index.occurrences := by
  simp only [occurrences, vars, mentions, List.filterMap_append, List.map_append]

theorem map_mentionsAll (es : List Expr) :
    ((mentionsAll es).filterMap Mention.var?).map (fun v => Occurrence.reference v.name) =
      occurrencesAll es := by
  induction es with
  | nil => rfl
  | cons e es ih =>
    rw [mentionsAll, List.filterMap_append, List.map_append, ih, occurrencesAll, occurrencesAll,
      List.flatMap_cons]
    rfl

theorem occurrences_array (elements : List Expr) (t : Ty) :
    (array elements t).occurrences = occurrencesAll elements := map_mentionsAll elements

theorem occurrences_call (name : String) (args : List Expr) (t : Ty) :
    (call name args t).occurrences = occurrencesAll args := map_mentionsAll args

/-- An expression declares nothing. -/
theorem declaredIn_occurrences (e : Expr) : declaredIn e.occurrences = [] := by
  rw [declaredIn, occurrences, List.filterMap_map]
  exact List.filterMap_eq_nil_iff.2 fun v _ => rfl

/-- The names of an expression are numbered by the declarations before it. -/
theorem occurrences_renamed (before : List String) (e : Expr) :
    (e.renamed before).occurrences = numberFrom before e.occurrences := by
  rw [occurrences, vars_renamed, occurrences]
  induction e.vars with
  | nil => rfl
  | cons v vs ih =>
    have hnone : declaredIn [.reference v.name] = [] := rfl
    rw [List.map_cons, List.map_cons, List.map_cons, numberFrom, hnone, List.append_nil, ih]
    rfl

end Expr

namespace Stmt

mutual

/-- The places of a statement and of its parts, in the order of the text. -/
def occurrences : Stmt → List Occurrence
  | print argument => argument.occurrences
  | varDec v initializer => .declaration v.name :: initializer.occurrences
  | assign target source => target.occurrences ++ source.occurrences
  | loop test body => test.occurrences ++ occurrencesAll body
  | funDec _ body => occurrencesAll body
  | result expression => (expression.map Expr.occurrences).getD []
  | call name args ty => (Expr.call name args ty).occurrences

def occurrencesAll : List Stmt → List Occurrence
  | [] => []
  | s :: ss => s.occurrences ++ occurrencesAll ss

end

/-- A walk comes to the declarations in their order. -/
theorem declaredIn_occurrencesAll (ss : List Stmt) :
    declaredIn (occurrencesAll ss) = letsAll ss := by
  induction ss using Stmt.induction (P := fun s => declaredIn s.occurrences = s.lets) with
  | step s ih =>
    cases s with
    | print argument => exact argument.declaredIn_occurrences
    | varDec v initializer =>
      rw [occurrences, Occurrence.declaredIn_cons, Expr.declaredIn_occurrences, List.append_nil]
      rfl
    | assign target source =>
      rw [occurrences, Occurrence.declaredIn_append, Expr.declaredIn_occurrences,
        Expr.declaredIn_occurrences]
      rfl
    | loop test body =>
      rw [occurrences, Occurrence.declaredIn_append, Expr.declaredIn_occurrences]
      exact ih
    | funDec f body => exact ih
    | result expression =>
      cases expression with
      | none => rfl
      | some e => exact e.declaredIn_occurrences
    | call name args ty => exact Expr.declaredIn_occurrences _
  | nil => rfl
  | cons s ss hs ih =>
    rw [occurrencesAll, Occurrence.declaredIn_append, hs, ih, letsAll]

theorem declaredIn_occurrences (s : Stmt) : declaredIn s.occurrences = s.lets := by
  have h := declaredIn_occurrencesAll [s]
  rwa [occurrencesAll, occurrencesAll, List.append_nil, letsAll, letsAll, List.append_nil] at h

/-- The names of a renamed program, in the order of the text, are the numbered ones. -/
theorem occurrencesAll_renamedAll (before : List String) (ss : List Stmt) :
    occurrencesAll (renamedAll before ss) = numberFrom before (occurrencesAll ss) := by
  induction ss using Stmt.induction (P := fun s => ∀ before,
      (s.renamed before).occurrences = numberFrom before s.occurrences) generalizing before with
  | step s ih before =>
    cases s with
    | print argument => exact argument.occurrences_renamed before
    | varDec v initializer =>
      rw [renamed, occurrences, occurrences, Expr.occurrences_renamed, numberFrom]
      rfl
    | assign target source =>
      rw [renamed, occurrences, occurrences, numberFrom_append, Expr.declaredIn_occurrences,
        List.append_nil, Expr.occurrences_renamed, Expr.occurrences_renamed]
    | loop test body =>
      rw [renamed, occurrences, occurrences, numberFrom_append, Expr.declaredIn_occurrences,
        List.append_nil, Expr.occurrences_renamed]
      exact congrArg _ (ih before)
    | funDec f body => exact ih before
    | result expression =>
      cases expression with
      | none => rfl
      | some e => exact e.occurrences_renamed before
    | call name args ty => exact Expr.occurrences_renamed before (.call name args ty)
  | nil => rfl
  | cons s ss hs ih =>
    rw [renamedAll, occurrencesAll, occurrencesAll, hs, ih, numberFrom_append,
      declaredIn_occurrences]

end Stmt

/-! ## All but the names -/

namespace Expr

mutual

/-- The expression without the names of its variables. -/
def unnamed : Expr → Expr
  | literal value => literal value
  | var v => var ⟨"", v.ty⟩
  | binary op left right ty => binary op left.unnamed right.unnamed ty
  | unary op operand ty => unary op operand.unnamed ty
  | array elements ty => array (unnamedAll elements) ty
  | subscript base index ty => subscript base.unnamed index.unnamed ty
  | call name args ty => call name (unnamedAll args) ty

def unnamedAll : List Expr → List Expr
  | [] => []
  | e :: es => e.unnamed :: unnamedAll es

end

theorem unnamedAll_renamedAll {before : List String} {es : List Expr}
    (h : ∀ e ∈ es, (e.renamed before).unnamed = e.unnamed) :
    unnamedAll (renamedAll before es) = unnamedAll es := by
  induction es with
  | nil => rfl
  | cons e es ih =>
    obtain ⟨he, hes⟩ := List.forall_mem_cons.1 h
    rw [renamedAll, unnamedAll, unnamedAll, he, ih hes]

/-- Renaming changes names only. -/
theorem unnamed_renamed (before : List String) (e : Expr) :
    (e.renamed before).unnamed = e.unnamed := by
  induction e using Expr.induction with
  | literal value => rfl
  | var v => rfl
  | binary op left right t ihl ihr => rw [renamed, unnamed, unnamed, ihl, ihr]
  | unary op operand t ih => rw [renamed, unnamed, unnamed, ih]
  | array elements t ih => rw [renamed, unnamed, unnamed, unnamedAll_renamedAll ih]
  | subscript base index t ihb ihi => rw [renamed, unnamed, unnamed, ihb, ihi]
  | call name args t ih => rw [renamed, unnamed, unnamed, unnamedAll_renamedAll ih]

/-- The names, in the order of the walk, and the rest make up the expression. What follows the names
is left over, so that the parts of an expression take theirs one after the other. -/
def Determined (e : Expr) : Prop :=
  ∀ ⦃e' os os'⦄, e.unnamed = e'.unnamed → e.occurrences ++ os = e'.occurrences ++ os' →
    e = e' ∧ os = os'

theorem determinedAll {es : List Expr} (h : ∀ e ∈ es, e.Determined) ⦃es' : List Expr⦄
    ⦃os os' : List Occurrence⦄ (hes : unnamedAll es = unnamedAll es')
    (hos : occurrencesAll es ++ os = occurrencesAll es' ++ os') : es = es' ∧ os = os' := by
  induction es generalizing es' with
  | nil =>
    cases es' with
    | nil => exact ⟨rfl, hos⟩
    | cons e' es' => cases hes
  | cons e es ih =>
    cases es' with
    | nil => cases hes
    | cons e' es' =>
      obtain ⟨he, htail⟩ := List.cons.inj hes
      obtain ⟨hfirst, hall⟩ := List.forall_mem_cons.1 h
      simp only [occurrencesAll, List.flatMap_cons, List.append_assoc] at hos
      obtain ⟨rfl, hrest⟩ := hfirst he hos
      obtain ⟨rfl, hleft⟩ := ih hall htail hrest
      exact ⟨rfl, hleft⟩

/-- An expression is determined by what it is without its names, and by its names in their order. -/
theorem determined (e : Expr) : e.Determined := by
  induction e using Expr.induction with
  | literal value =>
    intro e' os os' he hos
    cases e' <;> cases he
    exact ⟨rfl, hos⟩
  | var v =>
    intro e' os os' he hos
    cases e' with
    | var v' =>
      obtain ⟨name, ty⟩ := v
      obtain ⟨name', ty'⟩ := v'
      cases he
      cases hos
      exact ⟨rfl, rfl⟩
    | _ => cases he
  | binary op left right t ihl ihr =>
    intro e' os os' he hos
    cases e' with
    | binary op' left' right' t' =>
      obtain ⟨rfl, hl, hr, rfl⟩ := Expr.binary.inj he
      simp only [occurrences_binary, List.append_assoc] at hos
      obtain ⟨rfl, hrest⟩ := ihl hl hos
      obtain ⟨rfl, hleft⟩ := ihr hr hrest
      exact ⟨rfl, hleft⟩
    | _ => cases he
  | unary op operand t ih =>
    intro e' os os' he hos
    cases e' with
    | unary op' operand' t' =>
      obtain ⟨rfl, ho, rfl⟩ := Expr.unary.inj he
      obtain ⟨rfl, hleft⟩ := ih ho hos
      exact ⟨rfl, hleft⟩
    | _ => cases he
  | array elements t ih =>
    intro e' os os' he hos
    cases e' with
    | array elements' t' =>
      obtain ⟨hes, rfl⟩ := Expr.array.inj he
      rw [occurrences_array, occurrences_array] at hos
      obtain ⟨rfl, hleft⟩ := determinedAll ih hes hos
      exact ⟨rfl, hleft⟩
    | _ => cases he
  | subscript base index t ihb ihi =>
    intro e' os os' he hos
    cases e' with
    | subscript base' index' t' =>
      obtain ⟨hb, hi, rfl⟩ := Expr.subscript.inj he
      simp only [occurrences_subscript, List.append_assoc] at hos
      obtain ⟨rfl, hrest⟩ := ihb hb hos
      obtain ⟨rfl, hleft⟩ := ihi hi hrest
      exact ⟨rfl, hleft⟩
    | _ => cases he
  | call name args t ih =>
    intro e' os os' he hos
    cases e' with
    | call name' args' t' =>
      obtain ⟨rfl, hes, rfl⟩ := Expr.call.inj he
      rw [occurrences_call, occurrences_call] at hos
      obtain ⟨rfl, hleft⟩ := determinedAll ih hes hos
      exact ⟨rfl, hleft⟩
    | _ => cases he

end Expr

namespace Stmt

mutual

/-- The statement without the names of its variables. Functions and parameters keep theirs. -/
def unnamed : Stmt → Stmt
  | print argument => print argument.unnamed
  | varDec v initializer => varDec ⟨"", v.ty⟩ initializer.unnamed
  | assign target source => assign target.unnamed source.unnamed
  | loop test body => loop test.unnamed (unnamedAll body)
  | funDec signature body => funDec signature (unnamedAll body)
  | result expression => result (expression.map Expr.unnamed)
  | call name args ty => call name (Expr.unnamedAll args) ty

def unnamedAll : List Stmt → List Stmt
  | [] => []
  | s :: ss => s.unnamed :: unnamedAll ss

end

theorem unnamedAll_renamedAll (before : List String) (ss : List Stmt) :
    unnamedAll (renamedAll before ss) = unnamedAll ss := by
  induction ss using Stmt.induction (P := fun s => ∀ before,
      (s.renamed before).unnamed = s.unnamed) generalizing before with
  | step s ih before =>
    cases s with
    | print argument => rw [renamed, unnamed, unnamed, Expr.unnamed_renamed]
    | varDec v initializer =>
      rw [renamed, unnamed, unnamed, Expr.unnamed_renamed]
      rfl
    | assign target source =>
      rw [renamed, unnamed, unnamed, Expr.unnamed_renamed, Expr.unnamed_renamed]
    | loop test body =>
      rw [renamed, unnamed, unnamed, Expr.unnamed_renamed]
      exact congrArg _ (ih before)
    | funDec f body =>
      rw [renamed, unnamed, unnamed]
      exact congrArg _ (ih before)
    | result expression =>
      cases expression with
      | none => rfl
      | some e => exact congrArg (result ∘ some) (e.unnamed_renamed before)
    | call name args ty =>
      have hargs := Expr.unnamedAll_renamedAll fun e (_ : e ∈ args) => e.unnamed_renamed before
      rw [renamed, unnamed, unnamed, hargs]
  | nil => rfl
  | cons s ss hs ih => rw [renamedAll, unnamedAll, unnamedAll, hs, ih]

/-- The names, in the order of the walk, and the rest make up the statement. -/
def Determined (s : Stmt) : Prop :=
  ∀ ⦃s' os os'⦄, s.unnamed = s'.unnamed → s.occurrences ++ os = s'.occurrences ++ os' →
    s = s' ∧ os = os'

/-- The names, in the order of the walk, and the rest make up the statements. -/
def DeterminedAll (ss : List Stmt) : Prop :=
  ∀ ⦃ss' os os'⦄, unnamedAll ss = unnamedAll ss' →
    occurrencesAll ss ++ os = occurrencesAll ss' ++ os' → ss = ss' ∧ os = os'

/-- A statement takes the names of its expressions, and then those of the block inside. -/
theorem determined_of_contents {s : Stmt} (h : DeterminedAll s.contents) : s.Determined := by
  intro s' os os' hs hos
  cases s with
  | print e =>
    cases s' with
    | print e' =>
      obtain ⟨rfl, hleft⟩ := e.determined (Stmt.print.inj hs) hos
      exact ⟨rfl, hleft⟩
    | _ => cases hs
  | varDec v e =>
    cases s' with
    | varDec v' e' =>
      obtain ⟨hv, he⟩ := Stmt.varDec.inj hs
      obtain ⟨hname, hrest⟩ := List.cons.inj hos
      obtain ⟨rfl, hleft⟩ := e.determined he hrest
      obtain ⟨name, ty⟩ := v
      obtain ⟨name', ty'⟩ := v'
      cases hv
      cases hname
      exact ⟨rfl, hleft⟩
    | _ => cases hs
  | assign t e =>
    cases s' with
    | assign t' e' =>
      obtain ⟨ht, he⟩ := Stmt.assign.inj hs
      simp only [occurrences, List.append_assoc] at hos
      obtain ⟨rfl, hrest⟩ := t.determined ht hos
      obtain ⟨rfl, hleft⟩ := e.determined he hrest
      exact ⟨rfl, hleft⟩
    | _ => cases hs
  | loop e body =>
    cases s' with
    | loop e' body' =>
      obtain ⟨he, hbody⟩ := Stmt.loop.inj hs
      simp only [occurrences, List.append_assoc] at hos
      obtain ⟨rfl, hrest⟩ := e.determined he hos
      obtain ⟨hsame, hleft⟩ := h hbody hrest
      exact ⟨congrArg (loop e) hsame, hleft⟩
    | _ => cases hs
  | funDec f body =>
    cases s' with
    | funDec f' body' =>
      obtain ⟨rfl, hbody⟩ := Stmt.funDec.inj hs
      obtain ⟨hsame, hleft⟩ := h hbody hos
      exact ⟨congrArg (funDec f) hsame, hleft⟩
    | _ => cases hs
  | result e =>
    cases s' with
    | result e' =>
      have he := Stmt.result.inj hs
      cases e with
      | none =>
        cases e' with
        | none => exact ⟨rfl, hos⟩
        | some e' => cases he
      | some e =>
        cases e' with
        | none => cases he
        | some e' =>
          obtain ⟨rfl, hleft⟩ := e.determined (Option.some.inj he) hos
          exact ⟨rfl, hleft⟩
    | _ => cases hs
  | call name args ty =>
    cases s' with
    | call name' args' ty' =>
      obtain ⟨rfl, hargs, rfl⟩ := Stmt.call.inj hs
      simp only [occurrences, Expr.occurrences_call] at hos
      obtain ⟨rfl, hleft⟩ := Expr.determinedAll (fun e _ => e.determined) hargs hos
      exact ⟨rfl, hleft⟩
    | _ => cases hs

theorem determinedAll (ss : List Stmt) : DeterminedAll ss := by
  induction ss using Stmt.induction (P := Determined) with
  | step s ih => exact determined_of_contents ih
  | nil =>
    intro ss' os os' hss hos
    cases ss' with
    | nil => exact ⟨rfl, hos⟩
    | cons s' ss' => cases hss
  | cons s ss hs ih =>
    intro ss' os os' hss hos
    cases ss' with
    | nil => cases hss
    | cons s' ss' =>
      obtain ⟨hfirst, htail⟩ := List.cons.inj hss
      simp only [occurrencesAll, List.append_assoc] at hos
      obtain ⟨rfl, hrest⟩ := hs hfirst hos
      obtain ⟨rfl, hleft⟩ := ih htail hrest
      exact ⟨rfl, hleft⟩

end Stmt

/-! ## Programs -/

namespace Program

variable {p q : Program}

/-- The places of a program, in the order of the text. -/
def occurrences (p : Program) : List Occurrence := Stmt.occurrencesAll p.statements

/-- The program without the names of its variables. -/
def unnamed (p : Program) : Program := ⟨Stmt.unnamedAll p.statements⟩

/-- `q` is `p` with its variables numbered: the name at each place counts the declarations of it on
the walk up to there, and nothing else is changed. -/
structure Numbers (p q : Program) : Prop where
  unnamed : q.unnamed = p.unnamed
  occurrences : ∀ i : Nat, q.occurrences[i]? =
    p.occurrences[i]?.map (Occurrence.renamed (declaredIn (p.occurrences.take (i + 1))))

theorem numbers_renamed (p : Program) : p.Numbers p.renamed where
  unnamed := congrArg Program.mk (Stmt.unnamedAll_renamedAll [] p.statements)
  occurrences i := by
    have hwalk : p.renamed.occurrences = numberFrom [] p.occurrences :=
      Stmt.occurrencesAll_renamedAll [] p.statements
    rw [hwalk, Occurrence.getElem?_numberFrom, List.nil_append]

/-- Programs that are the same without their names, and have the same names in the same order, are
the same. -/
theorem eq_of_unnamed_of_occurrences (h : p.unnamed = q.unnamed)
    (hos : p.occurrences = q.occurrences) : p = q := by
  obtain ⟨ss⟩ := p
  obtain ⟨ss'⟩ := q
  have hss : Stmt.unnamedAll ss = Stmt.unnamedAll ss' := congrArg Program.statements h
  obtain ⟨rfl, -⟩ := Stmt.determinedAll ss hss (congrArg (· ++ []) hos)
  rfl

/-- Exactly one program is `p` with its variables numbered, and the script of `p` is what is written
of that one with its names as they are. -/
theorem script_eq_plain_of_numbers (p : Program) :
    ∃ q, (∀ q', p.Numbers q' ↔ q' = q) ∧ p.script = q.plain := by
  refine ⟨p.renamed, fun q => ⟨fun hq => ?_, fun hq => ?_⟩, p.script_eq_plain_renamed⟩
  · apply eq_of_unnamed_of_occurrences (hq.unnamed.trans p.numbers_renamed.unnamed.symm)
    apply List.ext_getElem?
    intro i
    rw [hq.occurrences, p.numbers_renamed.occurrences]
  · rw [hq]
    exact p.numbers_renamed

/-- A name is declared again in a function and in a loop, from itself each time, and referred to
after both. -/
def redeclaredSource : String :=
  "let x = 1; fun f(y: num) -> num: (let x = x + y; return x;) " ++
    "while x < 3: (let x = f(x); print([x, -x]);) x = x + 1;"

def redeclaredScript : String :=
  "let x_1 = 1;\nfunction f(y) \x7b\n  let x_2 = x_2 + y;\n  return x_2;\n\x7d\n" ++
    "while (x_2 < 3) \x7b\n  let x_3 = f(x_3);\n  console.log([x_3, -x_3]);\n\x7d\n" ++
    "x_3 = x_3 + 1;"

theorem script_of_numbers_redeclaredSource : ∃ p q : Program, p.ReadFrom redeclaredSource ∧
    (∀ q', p.Numbers q' ↔ q' = q) ∧ p.script = redeclaredScript ∧ q.plain = redeclaredScript := by
  obtain ⟨p, hp, hscript⟩ := exists_readFrom redeclaredSource
    (P := fun p => p.script = redeclaredScript) (by decide +kernel)
  obtain ⟨q, hq, hplain⟩ := p.script_eq_plain_of_numbers
  exact ⟨p, q, hp, hq, hscript, hplain ▸ hscript⟩

end Program

end Scriptlet
