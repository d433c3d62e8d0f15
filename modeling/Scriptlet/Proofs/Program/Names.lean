import Scriptlet.Artifact
import Scriptlet.Proofs.Folding.Preservation
import Scriptlet.Proofs.Program.Sites
import Scriptlet.Proofs.SyntaxTree.Cover
import Scriptlet.Proofs.Token.Extent
import Scriptlet.Proofs.Typing.Frames

/-!
The names of a program are words. A name is the text of an identifier of the source, whatever is made
of it: the tree keeps it in a leaf, a declaration takes it from there, and an expression can mention
only what has been declared.
-/

namespace Scriptlet

open Outcome CheckM

/-- Letters, digits and underscores, and at least one of them. -/
structure IsWord (name : String) : Prop where
  ne_nil : name.toList ≠ []
  parts : ∀ c ∈ name.toList, Pattern.isWordPart c = true

/-! ## Tokens and leaves -/

namespace Pattern

theorem isWordPart_of_isWordStart {c : Char} (h : isWordStart c = true) : isWordPart c = true := by
  rw [isWordStart, Bool.or_eq_true] at h
  rw [isWordPart, Char.isAlphanum, Bool.or_eq_true, Bool.or_eq_true]
  exact h.imp_left .inl

/-- An identifier is what the pattern of words takes. -/
theorem isWord_of_token? {p : Pattern} {cs : List Char} {n : Nat} {value : String}
    (h : p.Takes cs n) (hp : p ∈ table) (ht : p.token? (cs.take n) = some (.identifier, value)) :
    IsWord value := by
  cases h with
  | @word c cs hc =>
    obtain ⟨-, rfl⟩ := Prod.mk.inj (Option.some.inj ht)
    rw [List.take_succ_cons, take_run]
    refine ⟨by simp, ?_⟩
    rw [String.toList_ofList]
    refine List.forall_mem_cons.2 ⟨isWordPart_of_isWordStart hc, fun c' hc' => ?_⟩
    exact List.all_eq_true.1 List.all_takeWhile c' hc'
  | sign =>
    obtain ⟨rfl, -⟩ := Prod.mk.inj (Option.some.inj ht)
    cases sign?_of_mem_table hp
  | number | string | blanks | comment => cases ht

end Pattern

theorem isWord_of_tokenize {source : String} {file : Option String} {tokens : List Token}
    (h : tokenize source file = .ok tokens) :
    ∀ t ∈ tokens, t.kind = .identifier → IsWord t.value := by
  refine Token.scan_induction
    (P := fun tokens => ∀ t ∈ tokens, t.kind = .identifier → IsWord t.value) ?_ ?_ h
  · intro position t ht hk
    cases List.mem_singleton.1 ht
    cases hk
  · intro p cs n offset rest hp hn hrest t ht hk
    rcases List.mem_append.1 ht with ht | ht
    · have htoken := Token.ofLexeme?_eq_some (Option.mem_toList.1 ht)
      rw [hk] at htoken
      exact Pattern.isWord_of_token? (Pattern.length?_eq_some_iff.1 hn) hp htoken
    · exact hrest t ht hk

/-- All names in the tree are such. -/
def Node.Named (P : String → Prop) (n : Node) : Prop := ∀ m ∈ n.leaves, m.rule = .id → P m.text

namespace Node

variable {P : String → Prop} {n m : Node}

theorem Named.text (h : n.Named P) (hid : n.rule = .id) : P n.text := by
  refine h n ?_ hid
  rw [leaves_of_isLeaf (by rw [hid]; rfl)]
  exact List.mem_singleton_self n

/-- The names in a tree are those of its parts. -/
theorem Named.child (h : n.Named P) (hrule : n.rule.isLeaf = false) (hm : m ∈ n.children) :
    m.Named P := by
  intro x hx
  apply h x
  rw [leaves_of_not_isLeaf hrule]
  generalize n.children = ns at hm
  induction ns with
  | nil => cases hm
  | cons n ns ih =>
    rw [leavesOf, List.mem_append]
    rcases List.mem_cons.1 hm with rfl | hm
    · exact .inl hx
    · exact .inr (ih hm)

end Node

/-- The leaves have the names of the tokens. -/
theorem Token.named_of_hasLeaf {P : String → Prop} {ts : List Token} {ns : List Node}
    (h : List.Forall₂ HasLeaf ts ns) (hts : ∀ t ∈ ts, t.kind = .identifier → P t.value) :
    ∀ n ∈ ns, n.rule = .id → P n.text := by
  induction h with
  | nil => exact fun n hn => absurd hn List.not_mem_nil
  | @cons t n ts ns hleaf _ ih =>
    obtain ⟨ht, hts⟩ := List.forall_mem_cons.1 hts
    refine List.forall_mem_cons.2 ⟨fun hid => ?_, ih hts⟩
    have hrule := hleaf.rule
    rw [hid] at hrule
    rw [hleaf.text]
    refine ht ?_
    generalize t.kind = k at hrule
    revert hrule
    cases k <;> decide

/-- Every name in the tree of a source is a word. -/
theorem named_of_parse {source : String} {file : Option String} {tokens : List Token} {tree : Node}
    (ht : tokenize source file = .ok tokens) (hp : parse tokens source = .ok tree) :
    tree.Named IsWord := by
  obtain ⟨body, last, rfl, -, -, htree⟩ := coversAll_of_parse (tokenize_coherent ht).1 hp
  rw [Node.Named, Node.leaves_of_not_isLeaf (by rw [htree.rule]; rfl)]
  refine Token.named_of_hasLeaf htree.children.leaves fun t hmem => ?_
  exact isWord_of_tokenize ht t (List.mem_append_left _ (List.mem_of_mem_filter hmem))

/-! ## Declarations -/

/-- All names that are declared in the statements and in their parts are such. -/
structure Stmt.AllNamed (P : String → Prop) (ss : List Stmt) : Prop where
  lets : ∀ x ∈ letsAll ss, P x
  functions : ∀ f ∈ functionsAll ss, P f.name ∧ ∀ v ∈ f.params, P v.name

namespace Stmt.AllNamed

variable {P : String → Prop} {s : Stmt} {ss : List Stmt}

theorem nil : AllNamed P [] :=
  ⟨fun _ h => absurd h List.not_mem_nil, fun _ h => absurd h List.not_mem_nil⟩

/-- The names of statements in a row are those of the first and those of the rest. -/
theorem cons_iff : AllNamed P (s :: ss) ↔ AllNamed P [s] ∧ AllNamed P ss := by
  constructor
  · intro h
    obtain ⟨hlets, hlets'⟩ := List.forall_mem_append.1 h.lets
    obtain ⟨hfunctions, hfunctions'⟩ := List.forall_mem_append.1 h.functions
    refine ⟨⟨?_, ?_⟩, hlets', hfunctions'⟩
    · rwa [letsAll, letsAll, List.append_nil]
    · rwa [functionsAll_singleton]
  · intro h
    obtain ⟨⟨hlets, hfunctions⟩, h'⟩ := h
    rw [letsAll, letsAll, List.append_nil] at hlets
    rw [functionsAll_singleton] at hfunctions
    exact ⟨List.forall_mem_append.2 ⟨hlets, h'.lets⟩,
      List.forall_mem_append.2 ⟨hfunctions, h'.functions⟩⟩

theorem contents (h : AllNamed P [s]) : AllNamed P s.contents := by
  obtain ⟨hlets, hfunctions⟩ := h
  rw [letsAll, letsAll, List.append_nil] at hlets
  rw [functionsAll_singleton] at hfunctions
  cases s with
  | loop test body => exact ⟨hlets, hfunctions⟩
  | funDec f body => exact ⟨hlets, (List.forall_mem_cons.1 hfunctions).2⟩
  | _ => exact .nil

theorem of_eq_nil (hlets : s.lets = []) (hfunctions : s.functions = []) : AllNamed P [s] := by
  refine ⟨?_, ?_⟩ <;> simp [letsAll, functionsAll, hlets, hfunctions]

end Stmt.AllNamed

section

variable {P : String → Prop} {text : String} {span : Span} {children : List Node}

theorem Node.Named.toParam {n : Node} {x : Variable × Position} (hn : n.Named P)
    (h : n.toParam = .ok x) : P x.1.name := by
  rw [Node.toParam] at h
  split at h
  · next hrule =>
    have hchild := fun m => hn.child (m := m) (by rw [hrule]; rfl)
    generalize n.children = children at h hchild
    rcases children with _ | ⟨name, _ | ⟨type, rest⟩⟩
    · cases h
    · obtain ⟨_, _, h⟩ := exceptBind_eq_ok.1 h
      cases h
    · obtain ⟨_, hname, h⟩ := exceptBind_eq_ok.1 h
      obtain ⟨_, _, h⟩ := exceptBind_eq_ok.1 h
      obtain rfl := exceptPure_eq_ok.1 h
      obtain ⟨hid, rfl⟩ := identifier_eq_ok_iff.1 hname
      exact (hchild name (by simp)).text hid
  · cases h

theorem Node.Named.toParams {n : Node} {xs : List (Variable × Position)} (hn : n.Named P)
    (h : n.toParams = .ok xs) : ∀ x ∈ xs, P x.1.name := by
  rw [Node.toParams] at h
  split at h
  · next hrule =>
    have hchild := fun m => hn.child (m := m) (by rw [hrule]; rfl)
    generalize n.children = children at h hchild
    induction children generalizing xs with
    | nil =>
      cases h
      exact fun x hx => absurd hx List.not_mem_nil
    | cons m ms ih =>
      simp only [List.mapM_cons, exceptBind_eq_ok, exceptPure_eq_ok] at h
      obtain ⟨x, hx, xs, hxs, rfl⟩ := h
      obtain ⟨hm, hms⟩ := List.forall_mem_cons.1 hchild
      exact List.forall_mem_cons.2 ⟨hm.toParam hx, ih hxs hms⟩
  · cases h

/-- Whatever is typed from the tree, as a statement or as a block, declares names of the tree only. -/
structure Node.KeepsNames (P : String → Prop) (n : Node) : Prop where
  stmt : n.Named P → ∀ ⦃ctx t ctx'⦄, checkStmt n ctx = .ok t ctx' → Stmt.AllNamed P [t]
  block : n.Named P → ∀ ⦃ctx ts ctx'⦄, checkBlock n ctx = .ok ts ctx' → Stmt.AllNamed P ts

/-- The names that statements in a row declare, from their trees. -/
theorem allNamed_of_checkStmts {ns : List Node} (hns : ∀ n ∈ ns, n.Named P ∧ n.KeepsNames P)
    {ctx ctx' : Context} {ts : List Stmt} (h : checkStmts ns ctx = .ok ts ctx') :
    Stmt.AllNamed P ts := by
  induction ns generalizing ctx ts with
  | nil =>
    obtain ⟨rfl, -⟩ := pure_eq_ok.1 h
    exact .nil
  | cons n ns ih =>
    obtain ⟨⟨hn, hkeeps⟩, hns⟩ := List.forall_mem_cons.1 hns
    simp only [checkStmts, bind_eq_ok, pure_eq_ok] at h
    obtain ⟨t, c, ht, ts, c', hts, rfl, rfl⟩ := h
    exact Stmt.AllNamed.cons_iff.2 ⟨hkeeps.stmt hn ht, ih hns hts⟩

theorem allNamed_of_varDec (hn : (⟨.varDec, text, span, children⟩ : Node).Named P)
    {ctx ctx' : Context} {t : Stmt}
    (h : checkStmt ⟨.varDec, text, span, children⟩ ctx = .ok t ctx') : Stmt.AllNamed P [t] := by
  obtain ⟨v, e, s, outer, hv, -, -, hok⟩ | ⟨d, herror⟩ := checkStmt_varDec_cases ctx
  · rw [hok] at h
    cases h
    obtain ⟨-, name, _, _, _, rfl, hid, -, rfl⟩ := hv
    have hname := (hn.child rfl (List.mem_cons_self ..)).text hid
    exact ⟨List.forall_mem_singleton.2 hname, fun f hf => absurd hf List.not_mem_nil⟩
  · rw [herror] at h
    cases h

/-- A function declares its own name, its parameters and what its body does. -/
theorem allNamed_of_checkFunction {name : String} {position : Position}
    {xs : List (Variable × Position)} {returnType : Ty} {m : CheckM (List Stmt)}
    {ctx ctx' : Context} {t : Stmt} (hname : P name) (hxs : ∀ x ∈ xs, P x.1.name)
    (hm : ∀ ⦃ctx ts ctx'⦄, m ctx = .ok ts ctx' → Stmt.AllNamed P ts)
    (h : checkFunction name position xs returnType m ctx = .ok t ctx') : Stmt.AllNamed P [t] := by
  rw [checkFunction, addFunction_bind_apply, bind_eq_ok] at h
  obtain ⟨body, c, hbody, hend⟩ := h
  simp only [inScope_eq_ok, bind_eq_ok, inFunction_eq_ok] at hbody
  obtain ⟨_, ⟨_, _, -, _, hbody, -⟩, -⟩ := hbody
  split at hend
  · obtain ⟨rfl, -⟩ := pure_eq_ok.1 hend
    obtain ⟨hlets, hfunctions⟩ := hm hbody
    refine ⟨?_, ?_⟩
    · simpa [Stmt.letsAll, Stmt.lets] using hlets
    · rw [Stmt.functionsAll_singleton, Stmt.functions]
      refine List.forall_mem_cons.2 ⟨⟨hname, ?_⟩, hfunctions⟩
      exact List.forall_mem_map.2 hxs
  · cases hend

theorem Context.newFunction_name {ctx : Context} {n : Node} {name : String} (hn : n.Named P)
    (h : ctx.newFunction n = .ok name) : P name := by
  obtain ⟨x, hx, h⟩ := exceptBind_eq_ok.1 h
  obtain ⟨hid, rfl⟩ := Node.identifier_eq_ok_iff.1 hx
  split at h
  · cases h
  · obtain rfl := exceptPure_eq_ok.1 h
    exact hn.text hid

theorem allNamed_of_funDec (hn : (⟨.funDec, text, span, children⟩ : Node).Named P)
    (hkeeps : ∀ n ∈ children, n.KeepsNames P) {ctx ctx' : Context} {t : Stmt}
    (h : checkStmt ⟨.funDec, text, span, children⟩ ctx = .ok t ctx') : Stmt.AllNamed P [t] := by
  have hchild := fun m => hn.child (m := m) rfl
  rcases children with _ | ⟨name, rest⟩
  · cases h
  rw [checkStmt] at h
  obtain ⟨f, _, hf, h⟩ := bind_eq_ok.1 h
  have hname := Context.newFunction_name (hchild name (by simp)) (reading_eq_ok.1 hf).1
  rcases rest with _ | ⟨params, rest⟩
  · cases h
  obtain ⟨xs, _, hxs, h⟩ := bind_eq_ok.1 h
  have hparams := (hchild params (by simp)).toParams (reading_eq_ok.1 hxs).1
  have hblock : ∀ n ∈ rest, ∀ ⦃ctx ts ctx'⦄, checkBlock n ctx = .ok ts ctx' →
      Stmt.AllNamed P ts := fun n hn => (hkeeps n (by simp [hn])).block (hchild n (by simp [hn]))
  split at h
  · exact allNamed_of_checkFunction hname hparams (hblock _ (by simp)) h
  · obtain ⟨_, _, -, h⟩ := bind_eq_ok.1 h
    exact allNamed_of_checkFunction hname hparams (hblock _ (by simp)) h
  · cases h

theorem allNamed_of_whileStmt (hn : (⟨.whileStmt, text, span, children⟩ : Node).Named P)
    (hkeeps : ∀ n ∈ children, n.KeepsNames P) {ctx ctx' : Context} {t : Stmt}
    (h : checkStmt ⟨.whileStmt, text, span, children⟩ ctx = .ok t ctx') :
    Stmt.AllNamed P [t] := by
  rcases children with _ | ⟨test, rest⟩
  · cases h
  rw [checkStmt] at h
  obtain ⟨e, _, -, h⟩ := bind_eq_ok.1 h
  rcases rest with _ | ⟨body, rest⟩
  · cases h
  obtain ⟨ts, _, hts, h⟩ := bind_eq_ok.1 h
  obtain ⟨rfl, -⟩ := pure_eq_ok.1 h
  obtain ⟨_, hts, -⟩ := inScope_eq_ok.1 hts
  obtain ⟨hlets, hfunctions⟩ := (hkeeps body (by simp)).block (hn.child rfl (by simp)) hts
  refine ⟨?_, ?_⟩
  · simpa [Stmt.letsAll, Stmt.lets] using hlets
  · rwa [Stmt.functionsAll_singleton, Stmt.functions]

/-- The statements without others inside, but for a `let`, declare nothing. -/
theorem declares_nothing {rule : Rule} (hlet : rule ≠ .varDec) (hwhile : rule ≠ .whileStmt)
    (hfun : rule ≠ .funDec) {ctx ctx' : Context} {t : Stmt}
    (h : checkStmt ⟨rule, text, span, children⟩ ctx = .ok t ctx') :
    t.lets = [] ∧ t.functions = [] := by
  cases rule with
  | varDec => exact absurd rfl hlet
  | whileStmt => exact absurd rfl hwhile
  | funDec => exact absurd rfl hfun
  | printStmt =>
    rcases children with _ | ⟨argument, rest⟩
    · cases h
    obtain ⟨_, _, -, h⟩ := bind_eq_ok.1 h
    obtain ⟨rfl, -⟩ := pure_eq_ok.1 h
    exact ⟨rfl, rfl⟩
  | assignStmt =>
    rcases children with _ | ⟨target, _ | ⟨source, rest⟩⟩
    · cases h
    · obtain ⟨_, _, -, h⟩ := bind_eq_ok.1 h
      cases h
    · simp only [checkStmt, checkAssign, bind_eq_ok, pure_eq_ok] at h
      obtain ⟨_, _, -, _, _, -, _, _, -, rfl, -⟩ := h
      exact ⟨rfl, rfl⟩
  | returnStmt =>
    rw [checkStmt, checkResult_apply] at h
    cases hρ : ctx.returnTypes with
    | nil =>
      rw [hρ] at h
      cases h
    | cons expected outer =>
      simp only [hρ, bind_eq_ok, pure_eq_ok] at h
      obtain ⟨_, _, -, _, _, -, rfl, -⟩ := h
      exact ⟨rfl, rfl⟩
  | callStmt =>
    rcases children with _ | ⟨⟨rule, callText, callSpan, parts⟩, rest⟩
    · cases h
    cases rule with
    | call =>
      obtain ⟨_, _, -, h⟩ := bind_eq_ok.1 h
      obtain ⟨rfl, -⟩ := pure_eq_ok.1 h
      exact ⟨rfl, rfl⟩
    | _ => cases h
  | _ => cases h

/-- The checker declares names that it has read, and no others. -/
theorem Node.keepsNames (P : String → Prop) (n : Node) : n.KeepsNames P := by
  induction n using Node.induction with
  | step rule text span children ih =>
    refine ⟨fun hn ctx t ctx' h => ?_, fun hn ctx ts ctx' h => ?_⟩
    · cases rule with
      | varDec => exact allNamed_of_varDec hn h
      | whileStmt => exact allNamed_of_whileStmt hn ih h
      | funDec => exact allNamed_of_funDec hn ih h
      | _ =>
        obtain ⟨hlets, hfunctions⟩ := declares_nothing (by simp) (by simp) (by simp) h
        exact .of_eq_nil hlets hfunctions
    · cases rule with
      | block => exact allNamed_of_checkStmts (fun n hmem => ⟨hn.child rfl hmem, ih n hmem⟩) h
      | _ => cases h

end

/-- Every name that a program declares is a word. -/
theorem allNamed_of_typed {source : String} {file : Option String} {p : Program}
    (h : typed source file = .ok p) : Stmt.AllNamed IsWord p.statements := by
  obtain ⟨tokens, ht, h⟩ := exceptBind_eq_ok.1 h
  obtain ⟨tree, hp, h⟩ := exceptBind_eq_ok.1 h
  obtain ⟨ctx, h⟩ := analyze_eq_ok.1 h
  have htree := named_of_parse ht hp
  rw [checkProgram] at h
  split at h
  · next hrule =>
    simp only [bind_eq_ok, pure_eq_ok] at h
    obtain ⟨ts, _, hts, rfl, -⟩ := h
    refine allNamed_of_checkStmts (fun n hn => ⟨?_, n.keepsNames IsWord⟩) hts
    exact htree.child (by rw [hrule]; rfl) hn
  · cases h

/-! ## Mentions -/

theorem Stmt.letsAll_foldAll (ss : List Stmt) : letsAll (foldAll ss) = letsAll ss := by
  induction ss using Stmt.induction (P := fun s => s.fold.lets = s.lets) with
  | step s ih =>
    cases s with
    | loop test body | funDec f body => exact ih
    | _ => rfl
  | nil => rfl
  | cons s ss hs ih => rw [foldAll, letsAll, letsAll, hs, ih]

theorem Stmt.AllNamed.fold {P : String → Prop} {ss : List Stmt} (h : AllNamed P ss) :
    AllNamed P (foldAll ss) := by
  refine ⟨?_, ?_⟩
  · rw [letsAll_foldAll]
    exact h.lets
  · rw [functionsAll_foldAll]
    exact h.functions

/-- The expressions inside a well-typed one are well typed in the same place. -/
theorem Expr.WellTyped.subexprs {e : Expr} (h : e.WellTyped Φ Γ) :
    ∀ x ∈ e.subexprs, x.WellTyped Φ Γ := by
  induction h with
  | literal => exact List.forall_mem_singleton.2 .literal
  | var hv => exact List.forall_mem_singleton.2 (.var hv)
  | binary hl hr hop ihl ihr =>
    exact List.forall_mem_cons.2 ⟨.binary hl hr hop, List.forall_mem_append.2 ⟨ihl, ihr⟩⟩
  | coalesce hl hr hty ihl ihr =>
    exact List.forall_mem_cons.2 ⟨.coalesce hl hr hty, List.forall_mem_append.2 ⟨ihl, ihr⟩⟩
  | unary ho hty ih => exact List.forall_mem_cons.2 ⟨.unary ho hty, ih⟩
  | array hes hne hty ih =>
    refine List.forall_mem_cons.2 ⟨.array hes hne hty, ?_⟩
    rw [subexprsAll_eq_flatMap]
    exact List.forall_mem_flatMap.2 ih
  | subscript hb hi hbase hindex ihb ihi =>
    exact List.forall_mem_cons.2 ⟨.subscript hb hi hbase hindex, List.forall_mem_append.2 ⟨ihb, ihi⟩⟩
  | call hf hargs htys ih =>
    refine List.forall_mem_cons.2 ⟨.call hf hargs htys, ?_⟩
    rw [subexprsAll_eq_flatMap]
    exact List.forall_mem_flatMap.2 ih

theorem Stmt.subexprsAll_eq_visitsAll (π : Site) (ss : List Stmt) :
    subexprsAll ss = (visitsAll π ss).flatMap fun v => v.expr.subexprs := by
  induction ss using Stmt.induction (P := fun s => ∀ π,
      s.subexprs = (s.visits π).flatMap fun v => v.expr.subexprs) generalizing π with
  | step s ih π =>
    rw [subexprs_eq, visits_eq, List.flatMap_append, List.flatMap_map, ih (π.enter s)]
  | nil => rfl
  | cons s ss hs ih => rw [subexprsAll, visitsAll, List.flatMap_append, hs π, ih]

/-- In a well-typed program over words, each expression is typed over words. -/
theorem Program.WellTyped.mem_subexprs {p : Program} (h : p.WellTyped)
    (hp : Stmt.AllNamed IsWord p.statements) {e : Expr} (he : e ∈ p.subexprs) :
    ∃ Φ Γ, e.WellTyped Φ Γ ∧ (∀ f ∈ Φ, IsWord f.name) ∧ ∀ v ∈ Γ, IsWord v.name := by
  rw [subexprs, Stmt.subexprsAll_eq_visitsAll p.start] at he
  obtain ⟨⟨π, e'⟩, hvisit, he⟩ := List.mem_flatMap.1 he
  obtain ⟨hbefore, hknown⟩ := declared_of_mem_visits _ hvisit
  have hsound := sound_of_mem_visits _ hvisit
  refine ⟨π.known, π.vars, (h.visits _ hvisit).subexprs e he, fun f hf => ?_, fun v hv => ?_⟩
  · exact (hp.functions f (hknown.subset hf)).1
  · obtain ⟨d, hd, rfl⟩ := List.mem_map.1 hv
    cases d with
    | varDec v => exact hp.lets _ (hbefore.subset (hsound.lets v hd))
    | param v =>
      obtain ⟨f, hf, hv⟩ := hsound.params v hd
      exact (hp.functions f (hknown.subset hf)).2 v hv

end Scriptlet
