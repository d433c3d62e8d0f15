import Scriptlet.Operator
import Scriptlet.Proofs.SyntaxTree.Recognition
import Scriptlet.Proofs.Token.Longest

/-!
The layout of trees: which parts a tree of each rule has, in which order. Every tree that is derived
from the tokens of a source is laid out so, its operators have texts that name one, and its numbers
are written as the pattern of numbers says.
-/

namespace Scriptlet

/-- The rules of expressions without parts. -/
def Rule.isAtom : Rule → Bool
  | .id | .num | .str | .true | .false => .true
  | _ => .false

/-- What a tree stands for. -/
inductive Category where
  | expr
  | type
  | param
  | params
  | stmt
  | block
  | program
deriving DecidableEq, Repr

/-- The trees of a category, with numbers that are written as `N` says. -/
inductive Laid (N : String → Prop) : Category → Shape → Prop where
  | atom : rule.isAtom = true → (rule = .num → N text) → Laid N .expr (.leaf rule text)
  | binary {op : BinaryOp} : op ≠ .coalesce → Laid N .expr l → Laid N .expr r →
      Laid N .expr (.branch .binary [l, .leaf .op op.symbol, r])
  | unary {op : UnaryOp} : Laid N .expr e → Laid N .expr (.branch .unary [.leaf .op op.symbol, e])
  | array : (∀ e ∈ es, Laid N .expr e) → Laid N .expr (.branch .arrayLit es)
  | subscript : Laid N .expr b → Laid N .expr i → Laid N .expr (.branch .subscript [b, i])
  | call : (∀ e ∈ es, Laid N .expr e) → Laid N .expr (.branch .call (.leaf .id name :: es))
  | typeName : Laid N .type (.leaf .type name)
  | arrayType : Laid N .type t → Laid N .type (.branch .arrayType [t])
  | param : Laid N .type t → Laid N .param (.branch .param [.leaf .id name, t])
  | params : (∀ p ∈ ps, Laid N .param p) → Laid N .params (.branch .params ps)
  | print : Laid N .expr e → Laid N .stmt (.branch .printStmt [e])
  | varDec : Laid N .expr e → Laid N .stmt (.branch .varDec [.leaf .id name, e])
  | assign : t.rule = .id ∨ t.rule = .subscript → Laid N .expr t → Laid N .expr e →
      Laid N .stmt (.branch .assignStmt [t, e])
  | loop : Laid N .expr e → Laid N .block b → Laid N .stmt (.branch .whileStmt [e, b])
  | procedure : Laid N .params ps → Laid N .block b →
      Laid N .stmt (.branch .funDec [.leaf .id name, ps, b])
  | function : Laid N .params ps → Laid N .type t → Laid N .block b →
      Laid N .stmt (.branch .funDec [.leaf .id name, ps, t, b])
  | result : Laid N .stmt (.branch .returnStmt [])
  | resultOf : Laid N .expr e → Laid N .stmt (.branch .returnStmt [e])
  | callStmt : f.rule = .call → Laid N .expr f → Laid N .stmt (.branch .callStmt [f])
  | block : (∀ s ∈ ss, Laid N .stmt s) → Laid N .block (.branch .block ss)
  | program : (∀ s ∈ ss, Laid N .stmt s) → Laid N .program (.branch .program ss)

/-- A name is the only expression that is named as one. -/
theorem Laid.eq_leaf_of_id (h : Laid N .expr s) (hs : s.rule = .id) : ∃ name, s = .leaf .id name := by
  cases h with
  | @atom rule text =>
    cases hs
    exact ⟨text, rfl⟩
  | _ => cases hs

/-- A tree of a call has a name first, then its arguments. -/
theorem Laid.eq_branch_of_call (h : Laid N .expr s) (hs : s.rule = .call) :
    ∃ name es, s = .branch .call (.leaf .id name :: es) ∧ ∀ e ∈ es, Laid N .expr e := by
  cases h with
  | call hes => exact ⟨_, _, rfl, hes⟩
  | atom h =>
    cases hs
    cases h
  | _ => cases hs

/-! ## Types and expressions -/

theorem DerivesType.laid (h : DerivesType ts rest s) : Laid N .type s := by
  induction h with
  | name => exact .typeName
  | array _ _ _ ih => exact .arrayType ih

theorem TokenKind.isAtom_of_atomRule? {k : TokenKind} {rule : Rule} (h : k.atomRule? = some rule) :
    rule.isAtom = true := by
  cases k <;> cases h <;> rfl

/-- A sign has its own text, and a number is written as `N` says. -/
structure Terminal.Fits (N : String → Prop) (t : Terminal) : Prop where
  coherent : t.Coherent
  number : t.kind = .number → N t.value

/-- Only numbers are read to leaves of numbers. -/
theorem TokenKind.eq_number_of_atomRule? {k : TokenKind} (h : k.atomRule? = some .num) :
    k = .number := by
  cases k <;> first | rfl | cases h

theorem Terminal.Coherent.unaryOp {o : Terminal} (h : o.Coherent)
    (hk : o.kind = .dash ∨ o.kind = .bang) :
    ∃ op : UnaryOp, o.value = op.symbol := by
  rcases hk with hk | hk
  · exact ⟨.negate, h _ (by rw [hk]; rfl)⟩
  · exact ⟨.not, h _ (by rw [hk]; rfl)⟩

/-- The sign between two operands. -/
def TokenKind.binaryOp? : TokenKind → Option BinaryOp
  | .equals => some .equals
  | .notEquals => some .notEquals
  | .less => some .less
  | .lessEquals => some .lessEquals
  | .greater => some .greater
  | .greaterEquals => some .greaterEquals
  | .plus => some .add
  | .dash => some .subtract
  | .star => some .multiply
  | .slash => some .divide
  | .percent => some .modulo
  | .starStar => some .power
  | _ => none

/-- A token between two operands has the sign of its operator. No token has the sign `??`. -/
theorem Terminal.Coherent.binaryOp {o : Terminal} {op : BinaryOp} (h : o.Coherent)
    (hk : o.kind.binaryOp? = some op) : op ≠ .coalesce ∧ o.value = op.symbol := by
  have hsign : op ≠ .coalesce ∧ o.kind.sign? = some op.symbol := by
    generalize o.kind = k at hk
    cases k <;> cases hk <;> exact ⟨by decide, rfl⟩
  exact ⟨hsign.1, h _ hsign.2⟩

/-- An operation between laid out operands. -/
theorem Laid.operation {o : Terminal} (h : o.Coherent) (hk : o.kind.binaryOp?.isSome)
    (hl : Laid N .expr l) (hr : Laid N .expr r) : Laid N .expr (.operation l o r) := by
  obtain ⟨op, hop⟩ := Option.isSome_iff_exists.1 hk
  obtain ⟨hne, hvalue⟩ := h.binaryOp hop
  rw [Shape.operation, hvalue]
  exact .binary hne hl hr

theorem TokenKind.isSome_binaryOp?_of_isRelational {k : TokenKind} (h : k.isRelational = true) :
    k.binaryOp?.isSome := by
  cases k <;> first | rfl | cases h

/-- What follows a derivation fits as the whole does. -/
theorem DerivesExpr.fits (h : DerivesExpr s ts rest ss) (hts : ∀ t ∈ ts, t.Fits N) :
    ∀ t ∈ rest, t.Fits N :=
  fun t ht => hts t (h.suffix.subset ht)

/-- The grammar of expressions gives trees of the layout. What is asked of the texts of numbers is
asked of the tokens. -/
theorem DerivesExpr.laid (h : DerivesExpr s ts rest ss) (hts : ∀ t ∈ ts, t.Fits N) :
    ∀ e ∈ ss, Laid N .expr e := by
  induction h with
  | ofAdditive _ ih
  | ofMultiplicative _ ih
  | ofUnary _ ih
  | ofPower _ ih
  | ofSuffixed _ ih
  | ofPrimary _ ih
  | one _ ih
  | someArguments _ ih => exact ih hts
  | comparison h hk _ ihl ihr =>
    obtain ⟨ho, hus⟩ := List.forall_mem_cons.1 (h.fits hts)
    have hl := List.forall_mem_singleton.1 (ihl hts)
    have hr := List.forall_mem_singleton.1 (ihr hus)
    exact List.forall_mem_singleton.2
      (.operation ho.coherent (TokenKind.isSome_binaryOp?_of_isRelational hk) hl hr)
  | sum h hk _ ihl ihr =>
    obtain ⟨ho, hus⟩ := List.forall_mem_cons.1 (h.fits hts)
    have hl := List.forall_mem_singleton.1 (ihl hts)
    have hr := List.forall_mem_singleton.1 (ihr hus)
    refine List.forall_mem_singleton.2 (.operation ho.coherent ?_ hl hr)
    rcases hk with hk | hk <;> rw [hk] <;> rfl
  | product h hk _ ihl ihr =>
    obtain ⟨ho, hus⟩ := List.forall_mem_cons.1 (h.fits hts)
    have hl := List.forall_mem_singleton.1 (ihl hts)
    have hr := List.forall_mem_singleton.1 (ihr hus)
    refine List.forall_mem_singleton.2 (.operation ho.coherent ?_ hl hr)
    rcases hk with hk | hk | hk <;> rw [hk] <;> rfl
  | power h hk _ ihl ihr =>
    obtain ⟨ho, hus⟩ := List.forall_mem_cons.1 (h.fits hts)
    have hl := List.forall_mem_singleton.1 (ihl hts)
    have hr := List.forall_mem_singleton.1 (ihr hus)
    exact List.forall_mem_singleton.2 (.operation ho.coherent (by rw [hk]; rfl) hl hr)
  | sign hk _ ih =>
    obtain ⟨ho, hts⟩ := List.forall_mem_cons.1 hts
    obtain ⟨op, hvalue⟩ := ho.coherent.unaryOp hk
    rw [hvalue]
    exact List.forall_mem_singleton.2 (.unary (List.forall_mem_singleton.1 (ih hts)))
  | subscript h _ _ _ ihb ihi =>
    obtain ⟨-, hus⟩ := List.forall_mem_cons.1 (h.fits hts)
    have hb := List.forall_mem_singleton.1 (ihb hts)
    have hi := List.forall_mem_singleton.1 (ihi hus)
    exact List.forall_mem_singleton.2 (.subscript hb hi)
  | call h hf _ _ _ ihf iha =>
    obtain ⟨-, hus⟩ := List.forall_mem_cons.1 (h.fits hts)
    obtain ⟨name, rfl⟩ := (List.forall_mem_singleton.1 (ihf hts)).eq_leaf_of_id hf
    exact List.forall_mem_singleton.2 (.call (iha hus))
  | atom hk =>
    refine List.forall_mem_singleton.2 (.atom (TokenKind.isAtom_of_atomRule? hk) ?_)
    rintro rfl
    exact (List.forall_mem_cons.1 hts).1.number (TokenKind.eq_number_of_atomRule? hk)
  | group _ _ _ ih => exact ih (List.forall_mem_cons.1 hts).2
  | array _ _ _ ih => exact List.forall_mem_singleton.2 (.array (ih (List.forall_mem_cons.1 hts).2))
  | more h _ _ ih ihs =>
    obtain ⟨-, hus⟩ := List.forall_mem_cons.1 (h.fits hts)
    exact List.forall_mem_cons.2 ⟨List.forall_mem_singleton.1 (ih hts), ihs hus⟩
  | noArguments => exact List.forall_mem_nil _

theorem DerivesExpr.laid_expr (h : DerivesExpr .expr ts rest [e]) (hts : ∀ t ∈ ts, t.Fits N) :
    Laid N .expr e :=
  List.forall_mem_singleton.1 (h.laid hts)

/-! ## Statements -/

/-- What the trees of a symbol stand for. -/
def StmtSymbol.category : StmtSymbol → Category
  | .statements | .statement => .stmt
  | .block => .block
  | .parameter | .parameters | .parameterList => .param
  | .returnType => .type

theorem DerivesStmt.fits (h : DerivesStmt s ts rest ss) (hts : ∀ t ∈ ts, t.Fits N) :
    ∀ t ∈ rest, t.Fits N :=
  fun t ht => hts t (h.suffix.subset ht)

/-- The grammar of statements gives trees of the layout, each in the category of its symbol. -/
theorem DerivesStmt.laid (h : DerivesStmt s ts rest ss) (hts : ∀ t ∈ ts, t.Fits N) :
    ∀ x ∈ ss, Laid N s.category x := by
  induction h with
  | nil | noParameters | noType => exact List.forall_mem_nil _
  | cons h _ ih ihs =>
    have hs := List.forall_mem_singleton.1 (ih hts)
    exact List.forall_mem_cons.2 ⟨hs, ihs (h.fits hts)⟩
  | block _ _ _ ih => exact List.forall_mem_singleton.2 (.block (ih (List.forall_mem_cons.1 hts).2))
  | declaration _ _ _ h =>
    simp only [List.forall_mem_cons] at hts
    exact List.forall_mem_singleton.2 (.varDec (h.laid_expr hts.2.2.2))
  | print _ _ h =>
    simp only [List.forall_mem_cons] at hts
    exact List.forall_mem_singleton.2 (.print (h.laid_expr hts.2.2))
  | loop _ h _ _ ih =>
    have hts := (List.forall_mem_cons.1 hts).2
    obtain ⟨-, hus⟩ := List.forall_mem_cons.1 (h.fits hts)
    have hb := List.forall_mem_singleton.1 (ih hus)
    exact List.forall_mem_singleton.2 (.loop (h.laid_expr hts) hb)
  | function _ _ _ hps _ ht _ _ ihps iht ih =>
    simp only [List.forall_mem_cons] at hts
    obtain ⟨-, hus⟩ := List.forall_mem_cons.1 (hps.fits hts.2.2.2)
    obtain ⟨-, hvs⟩ := List.forall_mem_cons.1 (ht.fits hus)
    have hparams := Laid.params (ihps hts.2.2.2)
    have hb := List.forall_mem_singleton.1 (ih hvs)
    cases ht with
    | noType => exact List.forall_mem_singleton.2 (.procedure hparams hb)
    | someType =>
      have htype := List.forall_mem_singleton.1 (iht hus)
      exact List.forall_mem_singleton.2 (.function hparams htype hb)
  | result => exact List.forall_mem_singleton.2 .result
  | resultOf _ h =>
    exact List.forall_mem_singleton.2 (.resultOf (h.laid_expr (List.forall_mem_cons.1 hts).2))
  | assignment h ht _ h' =>
    obtain ⟨-, hus⟩ := List.forall_mem_cons.1 (h.fits hts)
    exact List.forall_mem_singleton.2 (.assign ht (h.laid_expr hts) (h'.laid_expr hus))
  | call h hf => exact List.forall_mem_singleton.2 (.callStmt hf (h.laid_expr hts))
  | parameter _ _ h => exact List.forall_mem_singleton.2 (.param h.laid)
  | one _ ih | someParameters _ ih => exact ih hts
  | more h _ _ ih ihs =>
    obtain ⟨-, hus⟩ := List.forall_mem_cons.1 (h.fits hts)
    exact List.forall_mem_cons.2 ⟨List.forall_mem_singleton.1 (ih hts), ihs hus⟩
  | someType _ h => exact List.forall_mem_singleton.2 h.laid

theorem DerivesProgram.laid (h : DerivesProgram ts s) (hts : ∀ t ∈ ts, t.Fits N) :
    Laid N .program s := by
  cases h with
  | intro h => exact .program (h.laid hts)

/-- The tree of a source is laid out as a program. -/
theorem laid_of_parse {source : String} {file : Option String} {tokens : List Token} {tree : Node}
    (ht : tokenize source file = .ok tokens) (hp : parse tokens source = .ok tree) :
    Laid Pattern.number.Describes .program tree.shape := by
  obtain ⟨hend, hcoherent⟩ := tokenize_coherent ht
  refine (derivesProgram_of_parse hend hp).laid fun t htoken => ⟨hcoherent t htoken, fun hk => ?_⟩
  obtain ⟨token, hmem, rfl⟩ := List.mem_map.1 htoken
  exact Token.scan_numbers ht token hmem hk

end Scriptlet
