import Scriptlet.Proofs.Typing.Lockstep

/-!
The table of trees: which children a node of each rule has. The tree of a source keeps to it at
every node, and on a program that keeps to it typing never meets a malformed tree.
-/

namespace Scriptlet

open Outcome

/-- What the trees of a rule stand for. An operator stands for nothing by itself. -/
def Rule.category? : Rule → Option Category
  | program => some .program
  | block => some .block
  | printStmt | varDec | assignStmt | whileStmt | funDec | returnStmt | callStmt => some .stmt
  | params => some .params
  | param => some .param
  | type | arrayType => some .type
  | binary | unary | call | arrayLit | subscript | id | num | str | true | false => some .expr
  | op => none

/-- The rows of the table. -/
inductive Rule.Allows : Rule → List Node → Prop where
  | program : (∀ n ∈ ns, n.rule.category? = some .stmt) → Allows .program ns
  | printStmt : e.rule.category? = some .expr → Allows .printStmt [e]
  | varDec : x.rule = .id → e.rule.category? = some .expr → Allows .varDec [x, e]
  | assignStmt : t.rule = .id ∨ t.rule = .subscript → e.rule.category? = some .expr →
      Allows .assignStmt [t, e]
  | whileStmt : e.rule.category? = some .expr → b.rule = .block → Allows .whileStmt [e, b]
  | procedure : x.rule = .id → ps.rule = .params → b.rule = .block → Allows .funDec [x, ps, b]
  | function : x.rule = .id → ps.rule = .params → t.rule.category? = some .type →
      b.rule = .block → Allows .funDec [x, ps, t, b]
  | params : (∀ n ∈ ns, n.rule = .param) → Allows .params ns
  | param : x.rule = .id → t.rule.category? = some .type → Allows .param [x, t]
  | returnStmt : Allows .returnStmt []
  | returnOf : e.rule.category? = some .expr → Allows .returnStmt [e]
  | callStmt : f.rule = .call → Allows .callStmt [f]
  | block : (∀ n ∈ ns, n.rule.category? = some .stmt) → Allows .block ns
  | arrayType : t.rule.category? = some .type → Allows .arrayType [t]
  | binary {operator : BinaryOp} : l.rule.category? = some .expr → o.rule = .op →
      operator ≠ .coalesce → o.text = operator.symbol → r.rule.category? = some .expr →
      Allows .binary [l, o, r]
  | unary {operator : UnaryOp} : o.rule = .op → o.text = operator.symbol →
      e.rule.category? = some .expr → Allows .unary [o, e]
  | call : x.rule = .id → (∀ n ∈ ns, n.rule.category? = some .expr) → Allows .call (x :: ns)
  | arrayLit : (∀ n ∈ ns, n.rule.category? = some .expr) → Allows .arrayLit ns
  | subscript : b.rule.category? = some .expr → i.rule.category? = some .expr →
      Allows .subscript [b, i]
  | leaf : rule.isLeaf = Bool.true → Allows rule []

/-- The table holds at every node of the tree. -/
inductive Node.LaidOut : Node → Prop where
  | intro : n.rule.Allows n.children → (∀ c ∈ n.children, LaidOut c) → LaidOut n

variable {S : Position → Position → Prop} {n n' : Node}

/-! ## From the categories to the table -/

theorem Rule.category?_of_isAtom {rule : Rule} (h : rule.isAtom = Bool.true) :
    rule.category? = some .expr ∧ rule.isLeaf = Bool.true := by
  cases rule with
  | id | num | str | true | false => exact ⟨rfl, rfl⟩
  | _ => cases h

/-- Blocks and parameters have one rule each. -/
theorem Rule.eq_of_category? {rule rule' : Rule}
    (hrule : rule' = .block ∨ rule' = .params ∨ rule' = .param)
    (h : rule.category? = rule'.category?) : rule = rule' := by
  rcases hrule with rfl | rfl | rfl <;> cases rule <;> first | rfl | cases h

/-- What holds of every node with one of the shapes holds of all the nodes of a list. -/
theorem Shape.Pairs.forall_mem {P : Node → Prop} {ss : List Shape} {ns ns' : List Node}
    (h : Shape.Pairs S ss ns ns') (hss : ∀ s ∈ ss, ∀ ⦃n n'⦄, s.Pair S n n' → P n) :
    ∀ n ∈ ns, P n := by
  induction h with
  | nil => exact List.forall_mem_nil _
  | cons hn _ ih =>
    obtain ⟨hs, hss⟩ := List.forall_mem_cons.1 hss
    exact List.forall_mem_cons.2 ⟨hs hn, ih hss⟩

/-- A leaf without children keeps to the table, whatever its text is. -/
theorem Shape.Pair.laidOut_leaf {rule : Rule} {text : String}
    (h : (Shape.leaf rule text).Pair S n n') (hrule : rule.isLeaf = true) :
    n.rule = rule ∧ n.text = text ∧ n.LaidOut := by
  obtain ⟨-⟩ := h.leaf
  exact ⟨rfl, rfl, .intro (.leaf hrule) (List.forall_mem_nil _)⟩

/-- A tree of a category keeps to the table, and its rule belongs to the category. -/
theorem Laid.laidOut (h : Laid N c s) (hn : s.Pair S n n') :
    n.rule.category? = some c ∧ n.LaidOut := by
  -- the pair tells what a shape does not: that leaves have no children
  induction h generalizing n n' with
  | atom hrule =>
    obtain ⟨hcategory, hleaf⟩ := Rule.category?_of_isAtom hrule
    obtain ⟨rfl, -, hn⟩ := hn.laidOut_leaf hleaf
    exact ⟨hcategory, hn⟩
  | binary hop _ _ ihl ihr =>
    obtain ⟨-, hparts⟩ := hn.branch
    obtain _ | ⟨hl, _ | ⟨ho, _ | ⟨hr, _ | _⟩⟩⟩ := hparts
    obtain ⟨hl, hl'⟩ := ihl hl
    obtain ⟨ho, htext, ho'⟩ := ho.laidOut_leaf rfl
    obtain ⟨hr, hr'⟩ := ihr hr
    exact ⟨rfl, .intro (.binary hl ho hop htext hr) (by simp [hl', ho', hr'])⟩
  | unary _ ih =>
    obtain ⟨-, hparts⟩ := hn.branch
    obtain _ | ⟨ho, _ | ⟨he, _ | _⟩⟩ := hparts
    obtain ⟨ho, htext, ho'⟩ := ho.laidOut_leaf rfl
    obtain ⟨he, he'⟩ := ih he
    exact ⟨rfl, .intro (.unary ho htext he) (by simp [ho', he'])⟩
  | array _ ih =>
    obtain ⟨-, hparts⟩ := hn.branch
    have hes := hparts.forall_mem fun e he _ _ hn => ih e he hn
    exact ⟨rfl, .intro (.arrayLit fun e he => (hes e he).1) fun e he => (hes e he).2⟩
  | subscript _ _ ihb ihi =>
    obtain ⟨-, hparts⟩ := hn.branch
    obtain _ | ⟨hb, _ | ⟨hi, _ | _⟩⟩ := hparts
    obtain ⟨hb, hb'⟩ := ihb hb
    obtain ⟨hi, hi'⟩ := ihi hi
    exact ⟨rfl, .intro (.subscript hb hi) (by simp [hb', hi'])⟩
  | call _ ih =>
    obtain ⟨-, hparts⟩ := hn.branch
    obtain _ | ⟨hname, hargs⟩ := hparts
    obtain ⟨hname, -, hname'⟩ := hname.laidOut_leaf rfl
    have hes := hargs.forall_mem fun e he _ _ hn => ih e he hn
    refine ⟨rfl, .intro (.call hname fun e he => (hes e he).1) ?_⟩
    exact List.forall_mem_cons.2 ⟨hname', fun e he => (hes e he).2⟩
  | typeName =>
    obtain ⟨-⟩ := hn.leaf
    exact ⟨rfl, .intro (.leaf rfl) (List.forall_mem_nil _)⟩
  | arrayType _ ih =>
    obtain ⟨-, hparts⟩ := hn.branch
    obtain _ | ⟨ht, _ | _⟩ := hparts
    obtain ⟨ht, ht'⟩ := ih ht
    exact ⟨rfl, .intro (.arrayType ht) (by simp [ht'])⟩
  | param _ ih =>
    obtain ⟨-, hparts⟩ := hn.branch
    obtain _ | ⟨hname, _ | ⟨ht, _ | _⟩⟩ := hparts
    obtain ⟨hname, -, hname'⟩ := hname.laidOut_leaf rfl
    obtain ⟨ht, ht'⟩ := ih ht
    exact ⟨rfl, .intro (.param hname ht) (by simp [hname', ht'])⟩
  | params _ ih =>
    obtain ⟨-, hparts⟩ := hn.branch
    have hps := hparts.forall_mem fun p hp _ _ hn => ih p hp hn
    refine ⟨rfl, .intro (.params fun p hp => ?_) fun p hp => (hps p hp).2⟩
    exact Rule.eq_of_category? (.inr (.inr rfl)) (hps p hp).1
  | print _ ih =>
    obtain ⟨-, hparts⟩ := hn.branch
    obtain _ | ⟨he, _ | _⟩ := hparts
    obtain ⟨he, he'⟩ := ih he
    exact ⟨rfl, .intro (.printStmt he) (by simp [he'])⟩
  | varDec _ ih =>
    obtain ⟨-, hparts⟩ := hn.branch
    obtain _ | ⟨hname, _ | ⟨he, _ | _⟩⟩ := hparts
    obtain ⟨hname, -, hname'⟩ := hname.laidOut_leaf rfl
    obtain ⟨he, he'⟩ := ih he
    exact ⟨rfl, .intro (.varDec hname he) (by simp [hname', he'])⟩
  | assign ht _ _ iht ihe =>
    obtain ⟨-, hparts⟩ := hn.branch
    obtain _ | ⟨htarget, _ | ⟨he, _ | _⟩⟩ := hparts
    rw [← htarget.shape, Node.shape_rule] at ht
    obtain ⟨-, htarget'⟩ := iht htarget
    obtain ⟨he, he'⟩ := ihe he
    exact ⟨rfl, .intro (.assignStmt ht he) (by simp [htarget', he'])⟩
  | loop _ _ ihe ihb =>
    obtain ⟨-, hparts⟩ := hn.branch
    obtain _ | ⟨he, _ | ⟨hb, _ | _⟩⟩ := hparts
    obtain ⟨he, he'⟩ := ihe he
    obtain ⟨hb, hb'⟩ := ihb hb
    have hblock := Rule.eq_of_category? (.inl rfl) hb
    exact ⟨rfl, .intro (.whileStmt he hblock) (by simp [he', hb'])⟩
  | procedure _ _ ihps ihb =>
    obtain ⟨-, hparts⟩ := hn.branch
    obtain _ | ⟨hname, _ | ⟨hps, _ | ⟨hb, _ | _⟩⟩⟩ := hparts
    obtain ⟨hname, -, hname'⟩ := hname.laidOut_leaf rfl
    obtain ⟨hps, hps'⟩ := ihps hps
    obtain ⟨hb, hb'⟩ := ihb hb
    have hparams := Rule.eq_of_category? (.inr (.inl rfl)) hps
    have hblock := Rule.eq_of_category? (.inl rfl) hb
    exact ⟨rfl, .intro (.procedure hname hparams hblock) (by simp [hname', hps', hb'])⟩
  | function _ _ _ ihps iht ihb =>
    obtain ⟨-, hparts⟩ := hn.branch
    obtain _ | ⟨hname, _ | ⟨hps, _ | ⟨ht, _ | ⟨hb, _ | _⟩⟩⟩⟩ := hparts
    obtain ⟨hname, -, hname'⟩ := hname.laidOut_leaf rfl
    obtain ⟨hps, hps'⟩ := ihps hps
    obtain ⟨ht, ht'⟩ := iht ht
    obtain ⟨hb, hb'⟩ := ihb hb
    have hparams := Rule.eq_of_category? (.inr (.inl rfl)) hps
    have hblock := Rule.eq_of_category? (.inl rfl) hb
    exact ⟨rfl, .intro (.function hname hparams ht hblock) (by simp [hname', hps', ht', hb'])⟩
  | result =>
    obtain ⟨-, hparts⟩ := hn.branch
    obtain _ | _ := hparts
    exact ⟨rfl, .intro .returnStmt (List.forall_mem_nil _)⟩
  | resultOf _ ih =>
    obtain ⟨-, hparts⟩ := hn.branch
    obtain _ | ⟨he, _ | _⟩ := hparts
    obtain ⟨he, he'⟩ := ih he
    exact ⟨rfl, .intro (.returnOf he) (by simp [he'])⟩
  | callStmt hf _ ih =>
    obtain ⟨-, hparts⟩ := hn.branch
    obtain _ | ⟨hcall, _ | _⟩ := hparts
    rw [← hcall.shape, Node.shape_rule] at hf
    obtain ⟨-, hcall'⟩ := ih hcall
    exact ⟨rfl, .intro (.callStmt hf) (by simp [hcall'])⟩
  | block _ ih =>
    obtain ⟨-, hparts⟩ := hn.branch
    have hss := hparts.forall_mem fun s hs _ _ hn => ih s hs hn
    exact ⟨rfl, .intro (.block fun s hs => (hss s hs).1) fun s hs => (hss s hs).2⟩
  | program _ ih =>
    obtain ⟨-, hparts⟩ := hn.branch
    have hss := hparts.forall_mem fun s hs _ _ hn => ih s hs hn
    exact ⟨rfl, .intro (.program fun s hs => (hss s hs).1) fun s hs => (hss s hs).2⟩

/-! ## From the table to the categories -/

/-- The rows of leaves allow no children. -/
theorem Rule.Allows.eq_nil_of_isLeaf {rule : Rule} {ns : List Node} (h : rule.Allows ns)
    (hrule : rule.isLeaf = Bool.true) : ns = [] := by
  cases h with
  | leaf => rfl
  | _ => cases hrule

/-- A tree that keeps to the table matches itself, wherever its nodes begin. -/
theorem Node.LaidOut.matches_self (h : n.LaidOut) : n.Matches (fun _ _ => True) n := by
  induction h with
  | @intro n hallows _ ih =>
    obtain ⟨rule, text, span, children⟩ := n
    cases hrule : rule.isLeaf with
    | true =>
      cases hallows.eq_nil_of_isLeaf hrule
      exact .leaf hrule trivial
    | false => exact .branch hrule trivial (List.forall₂_same.2 ih)

theorem Node.shape_eq_leaf {rule : Rule} (h : n.rule = rule) (hrule : rule.isLeaf = true) :
    n.shape = .leaf rule n.text := by
  obtain ⟨_, text, span, children⟩ := n
  cases h
  exact shape_of_isLeaf hrule ..

/-- A row of the table, with children that are laid out themselves. -/
theorem Rule.Allows.laid {rule : Rule} {ns : List Node} (h : rule.Allows ns)
    (hrule : rule.isLeaf = Bool.false) (hc : rule.category? = some c)
    (hns : ∀ n ∈ ns, ∀ ⦃c⦄, n.rule.category? = some c → Laid N c n.shape) :
    Laid N c (.branch rule (ns.map Node.shape)) := by
  cases h with
  | program hss =>
    cases hc
    exact .program (List.forall_mem_map.2 fun n hn => hns n hn (hss n hn))
  | block hss =>
    cases hc
    exact .block (List.forall_mem_map.2 fun n hn => hns n hn (hss n hn))
  | arrayLit hes =>
    cases hc
    exact .array (List.forall_mem_map.2 fun n hn => hns n hn (hes n hn))
  | params hps =>
    cases hc
    refine .params (List.forall_mem_map.2 fun n hn => hns n hn ?_)
    rw [hps n hn]
    rfl
  | call hx hes =>
    cases hc
    obtain ⟨-, hns⟩ := List.forall_mem_cons.1 hns
    rw [List.map_cons, Node.shape_eq_leaf hx rfl]
    exact .call (List.forall_mem_map.2 fun n hn => hns n hn (hes n hn))
  | printStmt he =>
    cases hc
    exact .print (hns _ (by simp) he)
  | varDec hx he =>
    cases hc
    rw [List.map_cons, Node.shape_eq_leaf hx rfl]
    exact .varDec (hns _ (by simp) he)
  | assignStmt ht he =>
    cases hc
    refine .assign (by rwa [Node.shape_rule]) (hns _ (by simp) ?_) (hns _ (by simp) he)
    rcases ht with ht | ht <;> rw [ht] <;> rfl
  | whileStmt he hb =>
    cases hc
    exact .loop (hns _ (by simp) he) (hns _ (by simp) (by rw [hb]; rfl))
  | procedure hx hps hb =>
    cases hc
    rw [List.map_cons, Node.shape_eq_leaf hx rfl]
    exact .procedure (hns _ (by simp) (by rw [hps]; rfl)) (hns _ (by simp) (by rw [hb]; rfl))
  | function hx hps ht hb =>
    cases hc
    rw [List.map_cons, Node.shape_eq_leaf hx rfl]
    exact .function (hns _ (by simp) (by rw [hps]; rfl)) (hns _ (by simp) ht)
      (hns _ (by simp) (by rw [hb]; rfl))
  | param hx ht =>
    cases hc
    rw [List.map_cons, Node.shape_eq_leaf hx rfl]
    exact .param (hns _ (by simp) ht)
  | returnStmt =>
    cases hc
    exact .result
  | returnOf he =>
    cases hc
    exact .resultOf (hns _ (by simp) he)
  | callStmt hf =>
    cases hc
    exact .callStmt (by rwa [Node.shape_rule]) (hns _ (by simp) (by rw [hf]; rfl))
  | arrayType ht =>
    cases hc
    exact .arrayType (hns _ (by simp) ht)
  | binary hl ho hop htext hr =>
    cases hc
    rw [List.map_cons, List.map_cons, Node.shape_eq_leaf ho rfl, htext]
    exact .binary hop (hns _ (by simp) hl) (hns _ (by simp) hr)
  | unary ho htext he =>
    cases hc
    rw [List.map_cons, Node.shape_eq_leaf ho rfl, htext]
    exact .unary (hns _ (by simp) he)
  | subscript hb hi =>
    cases hc
    exact .subscript (hns _ (by simp) hb) (hns _ (by simp) hi)
  | leaf hleaf =>
    rw [hrule] at hleaf
    cases hleaf

/-- Every leaf is laid out in the category of its rule, if nothing is asked of the text of numbers.
-/
theorem Rule.laid_leaf {rule : Rule} (hrule : rule.isLeaf = Bool.true)
    (hc : rule.category? = some c) (text : String) : Laid (fun _ => True) c (.leaf rule text) := by
  cases rule with
  | id | num | str | true | false =>
    cases hc
    exact .atom rfl fun _ => trivial
  | type =>
    cases hc
    exact .typeName
  | op => cases hc
  | _ => cases hrule

/-- A tree that keeps to the table has the layout of its category. With `Laid.laidOut`, the table
and the categories say the same of trees. -/
theorem Node.LaidOut.laid (h : n.LaidOut) (hc : n.rule.category? = some c) :
    Laid (fun _ => True) c n.shape := by
  induction h generalizing c with
  | @intro n hallows _ ih =>
    obtain ⟨rule, text, span, children⟩ := n
    cases hrule : rule.isLeaf with
    | true =>
      rw [shape_of_isLeaf hrule]
      exact Rule.laid_leaf hrule hc text
    | false =>
      rw [shape_of_not_isLeaf hrule, shapes_eq_map]
      exact hallows.laid hrule hc fun n hn c hc => ih n hn hc

/-! ## Typing what keeps to the table -/

/-- Typing finds the parts of a program where the table puts them. -/
theorem Node.LaidOut.ne_malformedTree (h : n.LaidOut) (hrule : n.rule = .program) {d : Diagnostic}
    (hd : analyze n = .error d) (rule : String) : d.cause ≠ .malformedTree rule := by
  have hlaid : Laid (fun _ => True) .program n.shape := h.laid (by rw [hrule]; rfl)
  have hmatches : n.MatchesBelow (fun _ _ => True) n := by
    refine ⟨hrule, hrule, List.forall₂_same.2 fun c hc => ?_⟩
    cases h with
    | intro _ hchildren => exact (hchildren c hc).matches_self
  -- typing the program beside itself, with no regard to places
  have hagree := agree_analyze hlaid hmatches
  rw [hd] at hagree
  cases hagree with
  | error hd =>
    intro hcause
    have hwell := hd.wellFormed
    rw [hcause] at hwell
    cases hwell

/-- The tree of a source keeps to the table at every node, and so typing it never fails for a
malformed tree. -/
theorem laidOut_of_parse {source : String} {file : Option String} {tokens : List Token}
    {tree : Node} (ht : tokenize source file = .ok tokens) (hp : parse tokens source = .ok tree) :
    tree.rule = .program ∧ tree.LaidOut ∧
      ∀ d, analyze tree = .error d → ∀ rule, d.cause ≠ .malformedTree rule := by
  obtain ⟨hend, -⟩ := tokenize_coherent ht
  have hagree := agree_parse (S := fun _ _ => True) source source hend hend
    (List.forall₂_same.2 fun t _ => ⟨rfl, trivial⟩)
  rw [hp] at hagree
  cases hagree with
  | ok hbelow =>
    have hrule := hbelow.rule
    have hpair : tree.shape.Pair (fun _ _ => True) tree tree := by
      obtain ⟨rule, text, span, children⟩ := tree
      cases hrule
      exact ⟨rfl, .branch rfl trivial hbelow.children⟩
    obtain ⟨-, hout⟩ := (laid_of_parse ht hp).laidOut hpair
    exact ⟨hrule, hout, fun d hd rule => hout.ne_malformedTree hrule hd rule⟩

/-- A function that nobody declares is called in a loop inside another one. -/
def strayCallSource : String :=
  "fun f(a: num[]) -> bool: (while !(a[0n] == -1n): (let x = [a]; return g(x[0n], true);))"

/-- A call of a function that is not declared is refused for that, and not for the form of its tree.
-/
theorem laidOut_strayCallSource : ∃ tokens tree, tokenize strayCallSource none = .ok tokens ∧
    parse tokens strayCallSource = .ok tree ∧
    (analyze tree).map (fun _ => ()) = .error ⟨.undeclaredFunction "g", ⟨70, "shell"⟩⟩ ∧
    tree.rule = .program ∧ tree.LaidOut ∧
    ∀ d, analyze tree = .error d → ∀ rule, d.cause ≠ .malformedTree rule := by
  have hread : (tokenize strayCallSource none >>= fun tokens =>
      parse tokens strayCallSource).toOption.any (fun tree => (analyze tree).map (fun _ => ()) =
        .error ⟨.undeclaredFunction "g", ⟨70, "shell"⟩⟩) = true := by decide +kernel
  obtain ⟨tree, htree, hfault⟩ := exists_ok_of_any hread
  obtain ⟨tokens, ht, hp⟩ := exceptBind_eq_ok.1 htree
  exact ⟨tokens, tree, ht, hp, hfault, laidOut_of_parse ht hp⟩

end Scriptlet
