import Scriptlet.Proofs.Program.Parts
import Scriptlet.Proofs.Typing.WellTyped

/-!
Sites in a program. A walk through the statements, in the order of the text, comes to every
expression with what is known at its site: the variables that can be seen from it, the names that
have been declared so far wherever in the program, and the functions around it.
-/

namespace Scriptlet

/-- The functions that are declared in a block itself. -/
def Stmt.heads (ss : List Stmt) : List Signature := ss.filterMap Stmt.function?

/-! ## Sites -/

/-- How a variable came about: by a `let`, or as a parameter of a function. -/
inductive Declaration where
  | varDec (v : Variable)
  | param (v : Variable)
deriving DecidableEq, Repr

def Declaration.var : Declaration → Variable
  | varDec v => v
  | param v => v

/-- What is known where a walk through a program stands. -/
structure Site where
  /-- The declarations that can be seen, the nearest first. -/
  visible : List Declaration
  /-- The names declared by a `let` before, wherever in the program, the first one first. -/
  before : List String
  /-- The functions declared before, wherever in the program. -/
  known : List Signature
  /-- The blocks around, the innermost first. -/
  blocks : List (List Stmt)
  /-- The functions inside loops and functions that have ended before. -/
  ended : List Signature

namespace Site

/-- The declaration that a name stands for. -/
def lookup (π : Site) (name : String) : Option Declaration :=
  π.visible.find? (·.var.name = name)

def vars (π : Site) : List Variable := π.visible.map Declaration.var

/-- The functions declared in one of the blocks around. -/
def inSight (π : Site) : List Signature := π.blocks.flatMap Stmt.heads

/-- The site of the expressions of a statement. A `let` counts already in its own initializer,
though it cannot be seen there. -/
def inside (π : Site) : Stmt → Site
  | .varDec v _ => { π with before := π.before ++ [v.name] }
  | _ => π

/-- The site where the block inside a statement begins. -/
def enter (π : Site) : Stmt → Site
  | .loop _ body => { π with blocks := body :: π.blocks }
  | .funDec f body => { π with
      visible := f.params.reverse.map .param ++ π.visible
      known := π.known ++ [f]
      blocks := body :: π.blocks }
  | _ => π

/-- The site after a statement. -/
def after (π : Site) (s : Stmt) : Site where
  visible := s.declaration?.toList.map .varDec ++ π.visible
  before := π.before ++ s.lets
  known := π.known ++ s.functions
  blocks := π.blocks
  ended := Stmt.functionsAll s.contents ++ π.ended

end Site

/-- An expression and its site. -/
structure Visit where
  site : Site
  expr : Expr

namespace Stmt

mutual

/-- The expressions in a statement and in its parts, in the order of the text. -/
def visits (π : Site) : Stmt → List Visit
  | loop test body => ⟨π, test⟩ :: visitsAll (π.enter (.loop test body)) body
  | funDec f body => visitsAll (π.enter (.funDec f body)) body
  | s => s.exprs.map (Visit.mk (π.inside s))

def visitsAll (π : Site) : List Stmt → List Visit
  | [] => []
  | s :: ss => s.visits π ++ visitsAll (π.after s) ss

end

/-! A walk comes to the expressions of the statement itself, and then to the block inside. -/

/-- A statement is visited in its own expressions first, and then inside. -/
theorem visits_eq (π : Site) (s : Stmt) :
    s.visits π = s.exprs.map (Visit.mk (π.inside s)) ++ visitsAll (π.enter s) s.contents := by
  cases s <;> simp [visits, exprs, contents, visitsAll, Site.inside]

theorem mem_visits {π : Site} {s : Stmt} {v : Visit} :
    v ∈ s.visits π ↔
      (∃ e ∈ s.exprs, v = ⟨π.inside s, e⟩) ∨ v ∈ visitsAll (π.enter s) s.contents := by
  simp [visits_eq, eq_comm]

theorem mem_visitsAll_cons {π : Site} {s : Stmt} {ss : List Stmt} {v : Visit} :
    v ∈ visitsAll π (s :: ss) ↔ v ∈ s.visits π ∨ v ∈ visitsAll (π.after s) ss := by
  rw [visitsAll, List.mem_append]

/-- The functions of a statement are its own and those inside. -/
theorem functions_eq (s : Stmt) : s.functions = s.function?.toList ++ functionsAll s.contents := by
  cases s <;> rfl

end Stmt

/-! ## What holds at every site -/

namespace Stmt

/-- What each step of a walk keeps holds all along. `I` is what is known at a site of the
statements still to come in the block, and `J` what it says of an expression there. -/
theorem forall_visits {I : Site → List Stmt → Prop} {J : Visit → Prop}
    (here : ∀ {π s ss}, I π (s :: ss) → ∀ e ∈ s.exprs, J ⟨π.inside s, e⟩)
    (enter : ∀ {π s ss}, I π (s :: ss) → I (π.enter s) s.contents)
    (after : ∀ {π s ss}, I π (s :: ss) → I (π.after s) ss) {π : Site} {ss : List Stmt}
    (h : I π ss) : ∀ v ∈ visitsAll π ss, J v := by
  induction ss using Stmt.induction
    (P := fun s => ∀ π ss, I π (s :: ss) → ∀ v ∈ s.visits π, J v) generalizing π with
  | step s ih π ss h v hv =>
    rcases mem_visits.1 hv with ⟨e, he, rfl⟩ | hv
    · exact here h e he
    · exact ih (enter h) v hv
  | nil => exact fun v hv => absurd hv List.not_mem_nil
  | cons s ss hs ih =>
    intro v hv
    rcases mem_visitsAll_cons.1 hv with hv | hv
    · exact hs π ss h v hv
    · exact ih (after h) v hv

namespace WellTyped

variable {s : Stmt}

theorem exprs (h : s.WellTyped Φ Γ ρ) : ∀ e ∈ s.exprs, e.WellTyped Φ Γ := by
  cases h <;> simp_all [Stmt.exprs]

/-- The statements inside are typed at the site where they begin. -/
theorem contents {π : Site} (h : s.WellTyped π.known π.vars ρ) :
    ∃ ρ', AllWellTyped (π.enter s).known (π.enter s).vars ρ' s.contents := by
  cases s with
  | loop test body =>
    cases h with
    | loop _ _ hbody _ => exact ⟨ρ, hbody⟩
  | funDec f body =>
    cases h with
    | funDec hbody _ _ =>
      refine ⟨some f.returnType, ?_⟩
      have hvars : (π.enter (.funDec f body)).vars = f.params.reverse ++ π.vars := by
        simp [Site.enter, Site.vars, Function.comp_def, Declaration.var]
      rw [hvars]
      exact hbody
  | _ => exact ⟨ρ, .nil⟩

end WellTyped

end Stmt

namespace Site

@[simp] theorem known_inside (π : Site) (s : Stmt) : (π.inside s).known = π.known := by
  cases s <;> rfl

@[simp] theorem visible_inside (π : Site) (s : Stmt) : (π.inside s).visible = π.visible := by
  cases s <;> rfl

@[simp] theorem vars_inside (π : Site) (s : Stmt) : (π.inside s).vars = π.vars := by
  rw [vars, visible_inside, vars]

theorem vars_after (π : Site) (s : Stmt) :
    (π.after s).vars = s.declaration?.toList ++ π.vars := by
  simp [after, vars, Function.comp_def, Declaration.var]

theorem before_inside (π : Site) (s : Stmt) : (π.inside s).before <+: π.before ++ s.lets := by
  cases s with
  | varDec v e => exact List.prefix_rfl
  | _ => exact List.prefix_append _ _

/-- What is declared inside a statement comes in the order of the text. -/
theorem before_enter (π : Site) (s : Stmt) :
    (π.enter s).before ++ Stmt.letsAll s.contents <+: π.before ++ s.lets := by
  cases s with
  | loop test body => exact List.prefix_rfl
  | funDec f body => exact List.prefix_rfl
  | _ => simp [enter, Stmt.contents, Stmt.letsAll]

/-- Inside a statement the functions before it are known, and what it declares is known after it. -/
theorem known_enter (π : Site) (s : Stmt) :
    (π.enter s).known ++ Stmt.functionsAll s.contents <+: π.known ++ s.functions := by
  cases s with
  | loop test body => exact List.prefix_rfl
  | funDec f body => simp [enter, Stmt.contents, Stmt.functions]
  | _ => simp [enter, Stmt.contents, Stmt.functionsAll]

/-- Every variable that can be seen has been declared: by a `let` before, or in the head of a
function. -/
structure Sound (π : Site) : Prop where
  lets : ∀ v, .varDec v ∈ π.visible → v.name ∈ π.before
  params : ∀ v, .param v ∈ π.visible → ∃ f ∈ π.known, v ∈ f.params

namespace Sound

variable {π : Site} {s : Stmt}

theorem inside (h : π.Sound) : (π.inside s).Sound := by
  cases s with
  | varDec v e => exact ⟨fun w hw => List.mem_append_left _ (h.lets w hw), h.params⟩
  | _ => exact h

theorem enter (h : π.Sound) : (π.enter s).Sound := by
  cases s with
  | loop test body => exact ⟨h.lets, h.params⟩
  | funDec f body =>
    refine ⟨fun v hv => ?_, fun v hv => ?_⟩
    · apply h.lets v
      simpa [Site.enter] using hv
    · simp only [Site.enter, List.mem_append, List.mem_map, List.mem_reverse,
        Declaration.param.injEq, exists_eq_right, List.mem_singleton] at hv ⊢
      rcases hv with hv | hv
      · exact ⟨f, .inr rfl, hv⟩
      · obtain ⟨g, hg, hv⟩ := h.params v hv
        exact ⟨g, .inl hg, hv⟩
  | _ => exact h

theorem after (h : π.Sound) : (π.after s).Sound := by
  refine ⟨fun v hv => ?_, fun v hv => ?_⟩
  · simp only [Site.after, List.mem_append] at hv ⊢
    rcases hv with hv | hv
    · cases s with
      | varDec w e =>
        obtain rfl : v = w := by simpa [Stmt.declaration?] using hv
        exact .inr (by simp [Stmt.lets])
      | _ => cases hv
    · exact .inl (h.lets v hv)
  · have hv : .param v ∈ π.visible := by simpa [Site.after] using hv
    obtain ⟨f, hf, hv⟩ := h.params v hv
    exact ⟨f, List.mem_append_left _ hf, hv⟩

end Sound

end Site

/-! ## Programs -/

namespace Program

variable {p : Program}

def start (p : Program) : Site := ⟨[], [], [], [p.statements], []⟩

/-- The expressions of the program, in the order of the text. -/
def visits (p : Program) : List Visit := Stmt.visitsAll p.start p.statements

/-- The names declared by a `let`, in the order of the text. -/
def lets (p : Program) : List String := Stmt.letsAll p.statements

def functions (p : Program) : List Signature := Stmt.functionsAll p.statements

def params (p : Program) : List Variable := p.functions.flatMap Signature.params

/-- Every expression of a well-typed program is well typed at its own site. -/
theorem WellTyped.visits (h : p.WellTyped) :
    ∀ v ∈ p.visits, v.expr.WellTyped v.site.known v.site.vars := by
  refine Stmt.forall_visits (I := fun π ss => ∃ ρ, Stmt.AllWellTyped π.known π.vars ρ ss)
    ?_ ?_ ?_ ⟨none, h.statements⟩
  · rintro π s ss ⟨ρ, hss⟩ e he
    cases hss with
    | cons hs _ =>
      simp only [Site.known_inside, Site.vars_inside]
      exact hs.exprs e he
  · rintro π s ss ⟨ρ, hss⟩
    cases hss with
    | cons hs _ => exact hs.contents
  · rintro π s ss ⟨ρ, hss⟩
    cases hss with
    | cons _ hss =>
      refine ⟨ρ, ?_⟩
      rw [Site.vars_after]
      exact hss

/-- At every site of a program, what is visible has been declared before. -/
theorem sound_of_mem_visits : ∀ v ∈ p.visits, v.site.Sound := by
  have hstart : p.start.Sound :=
    ⟨fun v hv => absurd hv List.not_mem_nil, fun v hv => absurd hv List.not_mem_nil⟩
  exact Stmt.forall_visits (I := fun π _ => π.Sound) (fun h _ _ => h.inside) (fun h => h.enter)
    (fun h => h.after) hstart

/-- What is declared before a site is the first part of what is declared at all. -/
theorem declared_of_mem_visits :
    ∀ v ∈ p.visits, v.site.before <+: p.lets ∧ v.site.known <+: p.functions := by
  refine Stmt.forall_visits (I := fun π ss => π.before ++ Stmt.letsAll ss <+: p.lets ∧
    π.known ++ Stmt.functionsAll ss <+: p.functions) ?_ ?_ ?_ ⟨List.prefix_rfl, List.prefix_rfl⟩
  · rintro π s ss ⟨hlets, hfunctions⟩ e -
    rw [Stmt.letsAll, ← List.append_assoc] at hlets
    rw [Site.known_inside]
    exact ⟨((π.before_inside s).trans (List.prefix_append _ _)).trans hlets,
      (List.prefix_append _ _).trans hfunctions⟩
  · rintro π s ss ⟨hlets, hfunctions⟩
    rw [Stmt.letsAll, ← List.append_assoc] at hlets
    rw [Stmt.functionsAll, ← List.append_assoc] at hfunctions
    exact ⟨((π.before_enter s).trans (List.prefix_append _ _)).trans hlets,
      ((π.known_enter s).trans (List.prefix_append _ _)).trans hfunctions⟩
  · rintro π s ss ⟨hlets, hfunctions⟩
    rw [Stmt.letsAll, ← List.append_assoc] at hlets
    rw [Stmt.functionsAll, ← List.append_assoc] at hfunctions
    exact ⟨hlets, hfunctions⟩

end Program

/-! ## References and calls -/

/-- A variable that is mentioned, and its site. -/
structure Reference where
  site : Site
  var : Variable

/-- The declaration that the variable stands for. -/
def Reference.declaration? (r : Reference) : Option Declaration := r.site.lookup r.var.name

/-- A function that is called by its name, and the site. -/
structure Invocation where
  site : Site
  name : String

/-- The variable can be seen, or the function is known and fits the call. -/
def Mention.Known (Φ : List Signature) (Γ : List Variable) : Mention → Prop
  | var v => Γ.find? (·.name = v.name) = some v
  | call name count t => ∃ f ∈ Φ, f.name = name ∧ f.params.length = count ∧ f.returnType = t

/-- What a well-typed expression mentions is known where it stands. -/
theorem Expr.WellTyped.mentions {e : Expr} (h : e.WellTyped Φ Γ) :
    ∀ m ∈ e.mentions, m.Known Φ Γ := by
  induction h with
  | literal => exact fun m hm => absurd hm List.not_mem_nil
  | var hv => exact List.forall_mem_singleton.2 hv
  | binary _ _ _ ihl ihr => exact List.forall_mem_append.2 ⟨ihl, ihr⟩
  | coalesce _ _ _ ihl ihr => exact List.forall_mem_append.2 ⟨ihl, ihr⟩
  | unary _ _ ih => exact ih
  | array _ _ _ ih =>
    intro m hm
    obtain ⟨e, he, hm⟩ := mem_mentionsAll.1 hm
    exact ih e he m hm
  | subscript _ _ _ _ ihb ihi => exact List.forall_mem_append.2 ⟨ihb, ihi⟩
  | @call f args hf _ htys ih =>
    refine List.forall_mem_cons.2 ⟨⟨f, hf, rfl, ?_, rfl⟩, fun m hm => ?_⟩
    · simpa using (congrArg List.length htys).symm
    · obtain ⟨e, he, hm⟩ := mem_mentionsAll.1 hm
      exact ih e he m hm

namespace Program

variable {p : Program}

/-- The references to variables, in the order of the text. -/
def references (p : Program) : List Reference :=
  p.visits.flatMap fun v => v.expr.vars.map (Reference.mk v.site)

/-- The calls, in the order of the text. -/
def calls (p : Program) : List Invocation :=
  p.visits.flatMap fun v => v.expr.callees.map (Invocation.mk v.site)

theorem exists_visit_of_mem_references {r : Reference} (hr : r ∈ p.references) :
    ∃ v ∈ p.visits, v.site = r.site ∧ .var r.var ∈ v.expr.mentions := by
  obtain ⟨v, hv, hr⟩ := List.mem_flatMap.1 hr
  obtain ⟨x, hx, rfl⟩ := List.mem_map.1 hr
  obtain ⟨m, hm, hmx⟩ := List.mem_filterMap.1 hx
  cases m with
  | var w =>
    cases hmx
    exact ⟨v, hv, rfl, hm⟩
  | call _ _ _ => cases hmx

theorem exists_visit_of_mem_calls {c : Invocation} (hc : c ∈ p.calls) :
    ∃ v ∈ p.visits, v.site = c.site ∧ ∃ count t, .call c.name count t ∈ v.expr.mentions := by
  obtain ⟨v, hv, hc⟩ := List.mem_flatMap.1 hc
  obtain ⟨x, hx, rfl⟩ := List.mem_map.1 hc
  obtain ⟨m, hm, hmx⟩ := List.mem_filterMap.1 hx
  cases m with
  | var _ => cases hmx
  | call name count t =>
    cases hmx
    exact ⟨v, hv, rfl, count, t, hm⟩

/-- In a well-typed program every reference has its declaration, with the type that it carries. -/
theorem WellTyped.declaration (h : p.WellTyped) {r : Reference} (hr : r ∈ p.references) :
    ∃ d, r.declaration? = some d ∧ d.var = r.var := by
  obtain ⟨v, hv, hsite, hm⟩ := exists_visit_of_mem_references hr
  have hfind := (h.visits v hv).mentions _ hm
  rw [hsite] at hfind
  simp only [Mention.Known, Site.vars, List.find?_map, Option.map_eq_some_iff] at hfind
  exact hfind

/-- Every call of a well-typed program is of a function that is known there. -/
theorem WellTyped.callee (h : p.WellTyped) {c : Invocation} (hc : c ∈ p.calls) :
    ∃ f ∈ c.site.known, f.name = c.name := by
  obtain ⟨v, hv, hsite, count, t, hm⟩ := exists_visit_of_mem_calls hc
  obtain ⟨f, hf, hname, -⟩ := (h.visits v hv).mentions _ hm
  exact ⟨f, hsite ▸ hf, hname⟩

end Program

end Scriptlet
