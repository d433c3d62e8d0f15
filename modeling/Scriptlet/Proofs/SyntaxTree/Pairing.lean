import Mathlib.Data.List.Forall2
import Scriptlet.Proofs.SyntaxTree.Soundness

/-!
Two readings side by side. A `Pairing` says what corresponds in them. The second one may have tokens
where the first one has come to its end, and a construct that looks at the token there is lost: it
fails, or it leaves the cursor at the end, and nothing is said of the second reading any more.
`Pairing.coupled_run` says that the readings stay side by side through all constructs. The depth that
either is allowed makes no difference if it suffices for the tokens.
-/

namespace Scriptlet

open ParseM

/-- What corresponds in two readings, by the parsers `p` and `p'`. -/
structure Pairing (p p' : Parser) where
  place : Position → Position → Prop
  token : Token → Token → Prop
  node : Node → Node → Prop
  fault : Diagnostic → Diagnostic → Prop
  /-- Cursors at tokens that correspond. -/
  here : Cursor → Cursor → Prop
  /-- Cursors behind tokens that correspond, perhaps behind all of them. -/
  past : Cursor → Cursor → Prop
  /-- The first cursor is at its end, wherever the second one is. -/
  lost : Cursor → Prop
  /-- How many more tokens the second reading has. -/
  excess : Nat
  start_of_token : ∀ ⦃t t'⦄, token t t' → place t.span.start t'.span.start
  leaf : ∀ ⦃t t'⦄, token t t' → ∀ ⦃rule : Rule⦄, rule.isLeaf = true →
    node (ParseM.leaf rule t) (ParseM.leaf rule t')
  rule_eq : ∀ ⦃n n'⦄, node n n' → n.rule = n'.rule
  start_of_node : ∀ ⦃n n'⦄, node n n' → place n.start n'.start
  misplaced : ∀ ⦃n n'⦄, node n n' → ∀ message,
    fault ⟨.unexpectedTokenDetailed n.text message, n.start⟩
      ⟨.unexpectedTokenDetailed n'.text message, n'.start⟩
  kind_eq : ∀ ⦃c c'⦄, here c c' → c.kind = c'.kind
  current : ∀ ⦃c c'⦄, here c c' → token c.current c'.current
  remaining_eq : ∀ ⦃c c'⦄, here c c' → c'.remaining = c.remaining + excess
  unexpected : ∀ ⦃c c'⦄, here c c' → fault c.unexpected c'.unexpected
  unexpectedDetailed : ∀ ⦃c c'⦄, here c c' → ∀ message,
    fault (c.unexpectedDetailed message) (c'.unexpectedDetailed message)
  next : ∀ ⦃c c'⦄, here c c' → c.kind ≠ .endOfText →
    past c.next c'.next ∧ c.next.remaining < c.remaining
  stay : ∀ ⦃c c'⦄, here c c' → past c c' → c.kind = .endOfText → past c.next c'.next
  look : ∀ ⦃c c'⦄, past c c' → here c c' ∨ lost c
  finish : ∀ ⦃c c'⦄, past c c' → ∀ ⦃rule : Rule⦄, rule.isLeaf = false → ∀ ⦃start start'⦄,
    place start start' → ∀ ⦃ns ns'⦄, List.Forall₂ node ns ns' →
      node (p.nodeTo rule start ns c) (p'.nodeTo rule start' ns' c')
  kind_of_lost : ∀ ⦃c⦄, lost c → c.kind = .endOfText
  next_of_lost : ∀ ⦃c⦄, lost c → lost c.next ∧ ∃ t', token c.current t'
  finish_of_lost : ∀ ⦃c⦄, lost c → ∀ ⦃rule : Rule⦄, rule.isLeaf = false → ∀ ⦃start start'⦄,
    place start start' → ∀ ⦃ns ns'⦄, List.Forall₂ node ns ns' →
      ∃ n', node (p.nodeTo rule start ns c) n'

/-- A statement ends with a token of its own. An expression or a type ends where the next token does
not continue it, so that its reading has to look at that token. -/
def Goal.isOpen : Goal → Bool
  | .expr _ | .type _ => true
  | .stmt => false

namespace Pairing

variable {p p' : Parser} (P : Pairing p p') {α β α' β' : Type} {R : α → α' → Prop}
  {R' : β → β' → Prop} {b b₁ b₂ N : Nat} {o o₁ o₂ : Bool}

/-! ## Results -/

/-- A result of the first reading after it was lost. Only an open construct can have succeeded, and
then what it gave has a counterpart. -/
inductive Strays (o : Bool) (R : α → α' → Prop) : EStateM.Result Diagnostic Cursor α → Prop where
  | ok : o = true → P.lost c → R a a' → Strays o R (.ok a c)
  | error : P.lost c₀ → Strays o R (.error d c)

/-- Results that correspond, with at most `b` tokens left to the first reading. -/
inductive Coupled (b : Nat) (o : Bool) (R : α → α' → Prop) :
    EStateM.Result Diagnostic Cursor α → EStateM.Result Diagnostic Cursor α' → Prop where
  | ok : R a a' → P.past c c' → c.remaining ≤ b → Coupled b o R (.ok a c) (.ok a' c')
  | error : P.fault d d' → Coupled b o R (.error d c) (.error d' c')
  | stray : P.Strays o R r → Coupled b o R r r'

/-- From cursors that correspond, with at most `b` tokens left, the steps have results that
correspond, with at most `b₁` left. If the first reading may be lost before, it stays so. -/
structure Follows (b b₁ : Nat) (o o₁ : Bool) (R : α → α' → Prop) (m : ParseM α) (m' : ParseM α') :
    Prop where
  coupled : ∀ ⦃c c'⦄, P.past c c' → c.remaining ≤ b → P.Coupled b₁ o₁ R (m c) (m' c')
  stray : o = true → ∀ ⦃c⦄, P.lost c → P.Strays o₁ R (m c)

/-- The same at a token that does not end the text: the steps take it. -/
def Begins (b : Nat) (o : Bool) (R : α → α' → Prop) (m : ParseM α) (m' : ParseM α') : Prop :=
  ∀ ⦃c c'⦄, P.here c c' → c.kind ≠ .endOfText → c.remaining ≤ b + 1 → P.Coupled b o R (m c) (m' c')

variable {P}

theorem Coupled.mono {r : EStateM.Result Diagnostic Cursor α}
    {r' : EStateM.Result Diagnostic Cursor α'} (h : P.Coupled b o R r r') (hb : b ≤ b₁) :
    P.Coupled b₁ o R r r' := by
  cases h with
  | ok ha hc hr => exact .ok ha hc (Nat.le_trans hr hb)
  | error hd => exact .error hd
  | stray hs => exact .stray hs

/-- A closed construct that is lost has failed, and so counts as an open one too. -/
theorem Strays.opened {r : EStateM.Result Diagnostic Cursor α} (h : P.Strays false R r) :
    P.Strays o R r := by
  cases h with
  | ok ho => cases ho
  | error hc => exact .error hc

theorem Coupled.opened {r : EStateM.Result Diagnostic Cursor α}
    {r' : EStateM.Result Diagnostic Cursor α'} (h : P.Coupled b false R r r') :
    P.Coupled b o R r r' := by
  cases h with
  | ok ha hc hr => exact .ok ha hc hr
  | error hd => exact .error hd
  | stray hs => exact .stray hs.opened

/-- A reading that is lost stays lost. -/
theorem Strays.bind {m : ParseM α} {f : α → ParseM β} {f' : α' → ParseM β'} {c : Cursor}
    (h : P.Strays o R (m c))
    (hf : ∀ ⦃a a'⦄, R a a' → P.Follows b₁ b₂ o o₁ R' (f a) (f' a')) :
    P.Strays o₁ R' ((m >>= f) c) := by
  change P.Strays o₁ R' (EStateM.bind m f c)
  unfold EStateM.bind
  generalize m c = r at h
  cases h with
  | ok ho hc ha => exact (hf ha).stray ho hc
  | error hc => exact .error hc

/-- Results that correspond are followed by steps that do. -/
theorem Coupled.bind {m : ParseM α} {m' : ParseM α'} {f : α → ParseM β} {f' : α' → ParseM β'}
    {c c' : Cursor} (h : P.Coupled b o R (m c) (m' c'))
    (hf : ∀ ⦃a a'⦄, R a a' → P.Follows b b₁ o o₁ R' (f a) (f' a')) :
    P.Coupled b₁ o₁ R' ((m >>= f) c) ((m' >>= f') c') := by
  -- once the first reading is lost, what the second one does is of no account
  by_cases hstray : P.Strays o R (m c)
  · exact .stray (hstray.bind hf)
  change P.Coupled b₁ o₁ R' (EStateM.bind m f c) (EStateM.bind m' f' c')
  unfold EStateM.bind
  generalize m c = r, m' c' = r' at h hstray
  cases h with
  | ok ha hc hb => exact (hf ha).coupled hc hb
  | error hd => exact .error hd
  | stray h => exact (hstray h).elim

/-- A token that is asked for is taken in both readings, or missing in both. -/
theorem coupled_expectOr {c c' : Cursor} {k : TokenKind} {d d' : Diagnostic} (hhere : P.here c c')
    (hne : k ≠ .endOfText) (hd : P.fault d d') (hb : c.remaining ≤ b + 1) :
    P.Coupled b o P.token (expectOr k d c) (expectOr k d' c') := by
  rw [expectOr_apply, expectOr_apply, ← P.kind_eq hhere]
  by_cases hk : c.kind = k
  · rw [if_pos hk, if_pos hk]
    obtain ⟨hnext, hr⟩ := P.next hhere (hk ▸ hne)
    exact .ok (P.current hhere) hnext (by omega)
  · rw [if_neg hk, if_neg hk]
    exact .error hd

/-- Where the first reading cannot be lost, both have succeeded or both have failed. -/
theorem Coupled.exists_eq {r : EStateM.Result Diagnostic Cursor α}
    {r' : EStateM.Result Diagnostic Cursor α'} (h : P.Coupled b o R r r')
    (hlost : ∀ c, ¬P.lost c) :
    (∃ a c a' c', r = .ok a c ∧ r' = .ok a' c' ∧ R a a' ∧ P.past c c' ∧ c.remaining ≤ b) ∨
      ∃ d c d' c', r = .error d c ∧ r' = .error d' c' ∧ P.fault d d' := by
  cases h with
  | ok ha hc hr => exact .inl ⟨_, _, _, _, rfl, rfl, ha, hc, hr⟩
  | error hd => exact .inr ⟨_, _, _, _, rfl, rfl, hd⟩
  | stray hs =>
    cases hs with
    | ok _ hc => exact (hlost _ hc).elim
    | error hc => exact (hlost _ hc).elim

/-- Where a closed construct succeeds in the first reading, it does so in the second. -/
theorem Coupled.exists_ok {a : α} {c : Cursor} {r' : EStateM.Result Diagnostic Cursor α'}
    (h : P.Coupled b false R (.ok a c) r') :
    ∃ a' c', r' = .ok a' c' ∧ R a a' ∧ P.past c c' ∧ c.remaining ≤ b := by
  cases h with
  | ok ha hc hr => exact ⟨_, _, rfl, ha, hc, hr⟩
  | stray hs =>
    cases hs with
    | ok ho => cases ho

namespace Follows

theorem mono {m : ParseM α} {m' : ParseM α'} (h : P.Follows b b₁ o o₁ R m m') {b₀ : Nat}
    (hb : b₀ ≤ b) (hb₁ : b₁ ≤ b₂) : P.Follows b₀ b₂ o o₁ R m m' :=
  ⟨fun _ _ hc hr => (h.coupled hc (Nat.le_trans hr hb)).mono hb₁, h.stray⟩

/-- What is closed can stand where something open can. -/
theorem opened {m : ParseM α} {m' : ParseM α'} (h : P.Follows b b₁ o false R m m') :
    P.Follows b b₁ o o₁ R m m' :=
  ⟨fun _ _ hc hr => (h.coupled hc hr).opened, fun ho _ hc => (h.stray ho hc).opened⟩

/-- That a token was taken can be forgotten. -/
theorem keep {m : ParseM α} {m' : ParseM α'} (h : P.Follows b (b - 1) o o₁ R m m') :
    P.Follows b b o o₁ R m m' :=
  h.mono (Nat.le_refl b) (Nat.sub_le b 1)

/-- Steps that follow each other one by one do so in sequence. -/
theorem bind {m : ParseM α} {m' : ParseM α'} {f : α → ParseM β} {f' : α' → ParseM β'}
    (h : P.Follows b b₁ o o₁ R m m')
    (hf : ∀ ⦃a a'⦄, R a a' → P.Follows b₁ b₂ o₁ o₂ R' (f a) (f' a')) :
    P.Follows b b₂ o o₂ R' (m >>= f) (m' >>= f') :=
  ⟨fun _ _ hc hb => (h.coupled hc hb).bind hf, fun ho _ hc => (h.stray ho hc).bind hf⟩

theorem pure {a : α} {a' : α'} (h : R a a') : P.Follows b b o o R (pure a) (pure a') :=
  ⟨fun _ _ hc hb => .ok h hc hb, fun ho _ hc => .ok ho hc h⟩

theorem throw {d d' : Diagnostic} (h : P.fault d d') :
    P.Follows b b₁ o o₁ R (throw d) (throw d') :=
  ⟨fun _ _ _ _ => .error h, fun _ _ hc => .error hc⟩

theorem ite {Q : Prop} [Decidable Q] {m n : ParseM α} {m' n' : ParseM α'}
    (hm : P.Follows b b₁ o o₁ R m m') (hn : P.Follows b b₁ o o₁ R n n') :
    P.Follows b b₁ o o₁ R (if Q then m else n) (if Q then m' else n') := by
  split
  · exact hm
  · exact hn

/-- Steps that look at the current token: it corresponds, or the reading is lost. -/
theorem of_here {m : ParseM α} {m' : ParseM α'}
    (h : ∀ ⦃c c'⦄, P.here c c' → P.past c c' → c.remaining ≤ b → P.Coupled b₁ o₁ R (m c) (m' c'))
    (hlost : ∀ ⦃c⦄, P.lost c → P.Strays o₁ R (m c)) : P.Follows b b₁ o o₁ R m m' := by
  refine ⟨fun c c' hc hb => ?_, fun _ _ hc => hlost hc⟩
  rcases P.look hc with hhere | hc
  · exact h hhere hc hb
  · exact .stray (hlost hc)

/-- To look at the token is what can lose the first reading. -/
theorem kind_bind {f : TokenKind → ParseM β} {f' : TokenKind → ParseM β'}
    (hf : ∀ k, P.Follows b b₁ true o₁ R' (f k) (f' k)) :
    P.Follows b b₁ o o₁ R' (kind >>= f) (kind >>= f') := by
  refine of_here (fun c c' hhere hc hb => ?_) fun c hc => (hf c.kind).stray rfl hc
  rw [kind_bind_apply, kind_bind_apply, ← P.kind_eq hhere]
  exact (hf c.kind).coupled hc hb

/-- Steps that depend on how many tokens are left. -/
theorem remaining_bind (f : Nat → ParseM β) (f' : Nat → ParseM β')
    (hf : ∀ n ⦃b₀⦄, b₀ ≤ n → b₀ ≤ b →
      P.Follows b₀ b₁ true o₁ R' (f n) (f' (n + P.excess))) :
    P.Follows b b₁ o o₁ R' (get >>= fun c => f c.remaining) (get >>= fun c => f' c.remaining) := by
  refine of_here (fun c c' hhere hc hb => ?_) fun c hc => ?_
  · rw [get_bind_apply, get_bind_apply, P.remaining_eq hhere]
    exact (hf _ (Nat.le_refl _) hb).coupled hc (Nat.le_refl _)
  · exact (hf _ (Nat.zero_le _) (Nat.zero_le _)).stray rfl hc

theorem advance : P.Follows b b o true P.token advance advance := by
  refine of_here (fun c c' hhere hc hb => ?_) fun c hc => ?_
  · refine .ok (P.current hhere) ?_ ?_
    · by_cases hk : c.kind = .endOfText
      · exact P.stay hhere hc hk
      · exact (P.next hhere hk).1
    · have hr := c.remaining_next
      have hpos : 1 ≤ c.remaining := Nat.le_add_left ..
      omega
  · obtain ⟨hnext, t', ht⟩ := P.next_of_lost hc
    exact .ok rfl hnext ht

theorem unexpected : P.Follows b b₁ o o₁ R ParseM.unexpected ParseM.unexpected :=
  of_here (fun _ _ hhere _ _ => .error (P.unexpected hhere)) fun _ hc => .error hc

theorem unexpectedDetailed (message : String) :
    P.Follows b b₁ o o₁ R (ParseM.unexpectedDetailed message)
      (ParseM.unexpectedDetailed message) :=
  of_here (fun _ _ hhere _ _ => .error (P.unexpectedDetailed hhere message)) fun _ hc => .error hc

variable {k : TokenKind}

theorem expectOr {d : Cursor → Diagnostic} (hne : k ≠ .endOfText)
    (hd : ∀ ⦃c c'⦄, P.here c c' → P.fault (d c) (d c')) :
    P.Follows b (b - 1) o false P.token (get >>= fun c => expectOr k (d c))
      (get >>= fun c => expectOr k (d c)) := by
  refine of_here (fun c c' hhere _ hb => ?_) fun c hc => ?_
  · exact coupled_expectOr hhere hne (hd hhere) (by omega)
  · rw [get_bind_apply, expectOr_apply, if_neg]
    · exact .error hc
    · rw [P.kind_of_lost hc]
      exact hne.symm

/-- A token that has to be there is taken in both readings. Where the first one is lost it fails, as
no construct asks for the end of the text. -/
theorem expect (hne : k ≠ .endOfText) :
    P.Follows b (b - 1) o false P.token (expect k) (expect k) :=
  expectOr hne P.unexpected

theorem expect_bind {f : Token → ParseM β} {f' : Token → ParseM β'} (hne : k ≠ .endOfText)
    (hf : ∀ ⦃t t'⦄, P.token t t' → P.Follows b b₁ false o₁ R' (f t) (f' t')) :
    P.Follows b b₁ o o₁ R' (ParseM.expect k >>= f) (ParseM.expect k >>= f') :=
  (expect hne).keep.bind hf

theorem finish {rule : Rule} {start start' : Position} {ns ns' : List Node}
    (hrule : rule.isLeaf = false) (hstart : P.place start start')
    (hns : List.Forall₂ P.node ns ns') :
    P.Follows b b o o P.node (p.finish rule start ns) (p'.finish rule start' ns') := by
  refine ⟨fun c c' hc hb => .ok (P.finish hc hrule hstart hns) hc hb, fun ho c hc => ?_⟩
  obtain ⟨n', hn⟩ := P.finish_of_lost hc hrule hstart hns
  exact .ok ho hc hn

end Follows

namespace Begins

theorem advance_bind {f : Token → ParseM β} {f' : Token → ParseM β'}
    (hf : ∀ ⦃t t'⦄, P.token t t' → P.Follows b b false o R' (f t) (f' t')) :
    P.Begins b o R' (advance >>= f) (advance >>= f') := by
  intro c c' hhere hk hb
  obtain ⟨hnext, hr⟩ := P.next hhere hk
  exact (hf (P.current hhere)).coupled hnext (by omega)

theorem kind_bind {f : TokenKind → ParseM β} {f' : TokenKind → ParseM β'}
    (hf : ∀ k, P.Begins b o R' (f k) (f' k)) : P.Begins b o R' (kind >>= f) (kind >>= f') := by
  intro c c' hhere hk hb
  rw [kind_bind_apply, kind_bind_apply, ← P.kind_eq hhere]
  exact hf c.kind hhere hk hb

theorem expect {k : TokenKind} (hne : k ≠ .endOfText) :
    P.Begins b o P.token (expect k) (expect k) :=
  fun _ _ hhere _ hb => coupled_expectOr hhere hne (P.unexpected hhere) hb

theorem opened {m : ParseM α} {m' : ParseM α'} (h : P.Begins b false R m m') :
    P.Begins b o R m m' :=
  fun _ _ hhere hk hb => (h hhere hk hb).opened

theorem bind {m : ParseM α} {m' : ParseM α'} {f : α → ParseM β} {f' : α' → ParseM β'}
    (h : P.Begins b o R m m')
    (hf : ∀ ⦃a a'⦄, R a a' → P.Follows b b o o₁ R' (f a) (f' a')) :
    P.Begins b o₁ R' (m >>= f) (m' >>= f') :=
  fun _ _ hhere hk hb => (h hhere hk hb).bind hf

end Begins

/-! ## Lists -/

section Lists

variable {item item' : ParseM Node}

/-- Nothing is left to read with no tokens. -/
theorem Follows.of_zero {m : ParseM α} {m' : ParseM α'}
    (h : ∀ ⦃c⦄, P.lost c → P.Strays o₁ R (m c)) : P.Follows 0 b₁ o o₁ R m m' :=
  ⟨fun _ _ _ hr => absurd hr (Nat.not_succ_le_zero _), fun _ => h⟩

/-- A list stays open, as after an item the reading looks for a comma. The second loop has more
rounds for its further tokens. -/
theorem follows_commaSeparated
    (hitem : ∀ ⦃b⦄, b ≤ N → P.Follows b (b - 1) true true P.node item item') (n : Nat)
    (hb : b ≤ n) (hN : b ≤ N) :
    P.Follows b (b - 1) true true (List.Forall₂ P.node) (commaSeparated item n)
      (commaSeparated item' (n + P.excess)) := by
  induction n generalizing b with
  | zero =>
    rw [Nat.le_zero.1 hb]
    exact .of_zero fun _ hc => .error hc
  | succ n ih =>
    rw [Nat.add_right_comm]
    refine (hitem hN).bind fun node node' hnode => .kind_bind fun k => .ite ?_ ?_
    · refine Follows.advance.bind fun _ _ _ => ?_
      have hrest := ih (b := b - 1) (by omega) (by omega)
      exact hrest.keep.bind fun _ _ hnodes => .pure (.cons hnode hnodes)
    · exact .pure (.cons hnode .nil)

/-- A row of statements looks for the closing bracket. -/
theorem follows_untilClosed
    (hitem : ∀ ⦃b⦄, b ≤ N → P.Follows b (b - 1) true false P.node item item') (n : Nat)
    (hb : b ≤ n) (hN : b ≤ N) :
    P.Follows b b o true (List.Forall₂ P.node) (untilClosed item n)
      (untilClosed item' (n + P.excess)) := by
  induction n generalizing b o with
  | zero =>
    rw [Nat.le_zero.1 hb]
    exact .of_zero fun _ hc => .error hc
  | succ n ih =>
    rw [Nat.add_right_comm]
    refine .kind_bind fun k => ?_
    split
    · exact .pure .nil
    · exact .unexpectedDetailed _
    · refine (hitem hN).bind fun node node' hnode => ?_
      have hrest := ih (b := b - 1) (o := false) (by omega) (by omega)
      refine (hrest.mono (Nat.le_refl _) (Nat.sub_le b 1)).bind fun _ _ hnodes => ?_
      exact .pure (.cons hnode hnodes)

end Lists

/-! ## Constructs -/

/-- Goals are read side by side by cursors with at most `N` tokens left, and not at all by one that
is lost. -/
structure Solving (P : Pairing p p') (N : Nat) (solve solve' : Goal → ParseM Node) : Prop where
  coupled : ∀ goal ⦃c c'⦄, P.here c c' → c.remaining ≤ N →
    P.Coupled (c.remaining - 1) goal.isOpen P.node (solve goal c) (solve' goal c')
  fails : ∀ goal ⦃c⦄, P.lost c → ∃ d c₁, solve goal c = .error d c₁

variable {solve solve' : Goal → ParseM Node} (hs : P.Solving N solve solve')
include hs

/-- Goals are open where they have to look at the token after them. -/
theorem Solving.follows (goal : Goal) ⦃b : Nat⦄ (hb : b ≤ N) :
    P.Follows b (b - 1) o goal.isOpen P.node (solve goal) (solve' goal) := by
  refine .of_here (fun c c' hhere _ hr => ?_) fun c hc => ?_
  · exact (hs.coupled goal hhere (Nat.le_trans hr hb)).mono (Nat.sub_le_sub_right hr 1)
  · obtain ⟨d, c₁, h⟩ := hs.fails goal hc
    rw [h]
    exact .error hc

theorem Solving.inner (goal : Goal) :
    P.Follows N N o goal.isOpen P.node (solve goal) (solve' goal) :=
  (hs.follows goal (Nat.le_refl N)).keep

/-- A list of expressions ends with a bracket of its own. -/
theorem follows_exprList {close : TokenKind} (hclose : close ≠ .endOfText) (hb : b ≤ N) :
    P.Follows b (b - 1) o false (List.Forall₂ P.node) (Parser.exprList solve close)
      (Parser.exprList solve' close) := by
  refine .kind_bind fun k => ?_
  have hend : ∀ ⦃items items'⦄, List.Forall₂ P.node items items' →
      P.Follows b (b - 1) true false (List.Forall₂ P.node) (expect close >>= fun _ => pure items)
        (expect close >>= fun _ => pure items') :=
    fun _ _ hitems => (Follows.expect hclose).bind fun _ _ _ => .pure hitems
  apply Follows.ite
  · exact (Follows.pure .nil).bind hend
  · refine .remaining_bind (fun n => commaSeparated (solve (.expr .default)) n >>= _)
      (fun n => commaSeparated (solve' (.expr .default)) n >>= _) fun n b₀ hn hb₀ => ?_
    have hitems := follows_commaSeparated (hs.follows (.expr .default)) n hn (Nat.le_trans hb₀ hb)
    exact (hitems.mono (Nat.le_refl b₀) (by omega)).bind hend

theorem follows_param (hb : b ≤ N) :
    P.Follows b (b - 1) o true P.node (p.param solve) (p'.param solve') := by
  refine (Follows.expect (by decide)).bind fun name name' hname => ?_
  refine .expect_bind (by simp) fun _ _ _ => ?_
  have hsolve := (hs.follows (o := false) (.type .default) (Nat.le_trans (Nat.sub_le b 1) hb)).keep
  refine hsolve.bind fun type type' htype => ?_
  exact .finish rfl (P.start_of_token hname) (.cons (P.leaf hname rfl) (.cons htype .nil))

theorem follows_params : P.Follows N N o false P.node (p.params solve) (p'.params solve') := by
  refine .expect_bind (by simp) fun t t' ht => .kind_bind fun k => ?_
  have hend : ∀ ⦃items items'⦄, List.Forall₂ P.node items items' →
      P.Follows N N true false P.node
        (expect .closeParen >>= fun _ => p.finish .params t.span.start items)
        (expect .closeParen >>= fun _ => p'.finish .params t'.span.start items') :=
    fun _ _ hitems => .expect_bind (by simp) fun _ _ _ =>
      .finish rfl (P.start_of_token ht) hitems
  apply Follows.ite
  · exact (Follows.pure .nil).bind hend
  · refine .remaining_bind (fun n => commaSeparated (p.param solve) n >>= _)
      (fun n => commaSeparated (p'.param solve') n >>= _) fun n b hn hb => ?_
    have hitems := follows_commaSeparated (fun _ => follows_param hs) n hn hb
    exact (hitems.mono (Nat.le_refl b) (by omega)).bind hend

theorem follows_block : P.Follows N N o false P.node (p.block solve) (p'.block solve') := by
  refine .expect_bind (by simp) fun t t' ht => ?_
  refine .remaining_bind (fun n => untilClosed (solve .stmt) n >>= _)
    (fun n => untilClosed (solve' .stmt) n >>= _) fun n b hn hb => ?_
  have hstatements := follows_untilClosed (o := true) (hs.follows .stmt) n hn hb
  refine (hstatements.mono (Nat.le_refl b) hb).bind fun _ _ hns => ?_
  exact .expect_bind (by simp) fun _ _ _ => .finish rfl (P.start_of_token ht) hns

omit hs in
theorem begins_primary : P.Begins b false P.node Parser.primary Parser.primary := by
  refine .kind_bind fun k => ?_
  have hleaf : ∀ {rule : Rule}, rule.isLeaf = true → P.Begins b false P.node
      (advance >>= fun t => pure (ParseM.leaf rule t))
      (advance >>= fun t => pure (ParseM.leaf rule t)) :=
    fun hrule => .advance_bind fun _ _ ht => .pure (P.leaf ht hrule)
  split
  iterate 5 exact hleaf rfl
  exact fun _ _ hhere _ _ => .error (P.unexpected hhere)

theorem begins_unary : P.Begins N true P.node (p.unary solve) (p'.unary solve') := by
  refine .advance_bind fun t t' ht => (hs.inner _).bind fun e e' he => ?_
  exact .finish rfl (P.start_of_token ht) (.cons (P.leaf ht rfl) (.cons he .nil))

theorem begins_grouping :
    P.Begins N false P.node (Parser.grouping solve) (Parser.grouping solve') := by
  refine .advance_bind fun _ _ _ => (hs.inner _).bind fun e e' he => ?_
  exact .expect_bind (by simp) fun _ _ _ => .pure he

theorem begins_array : P.Begins N false P.node (p.array solve) (p'.array solve') := by
  refine .advance_bind fun t t' ht => ?_
  refine (follows_exprList hs (by decide) (Nat.le_refl N)).keep.bind fun _ _ hes => ?_
  exact .finish rfl (P.start_of_token ht) hes

omit hs in
theorem begins_namedType : P.Begins b false P.node Parser.namedType Parser.namedType :=
  (Begins.expect (by decide)).bind fun _ _ ht => .pure (P.leaf ht rfl)

theorem begins_declaration :
    P.Begins N false P.node (p.declaration solve) (p'.declaration solve') := by
  refine .advance_bind fun t t' ht => ?_
  have hname : P.Follows N (N - 1) false false P.token _ _ :=
    Follows.expectOr (k := .identifier) (by decide) fun _ _ hc =>
      P.unexpectedDetailed hc "expected identifier during variable declaration"
  rw [← bind_assoc]
  refine hname.keep.bind fun name name' hname => ?_
  refine .expect_bind (by simp) fun _ _ _ => (hs.inner _).bind fun e e' he => ?_
  refine .expect_bind (by simp) fun _ _ _ => ?_
  exact .finish rfl (P.start_of_token ht) (.cons (P.leaf hname rfl) (.cons he .nil))

theorem begins_print : P.Begins N false P.node (p.print solve) (p'.print solve') := by
  refine .advance_bind fun t t' ht => .expect_bind (by simp) fun _ _ _ => ?_
  refine (hs.inner _).bind fun e e' he => ?_
  refine .expect_bind (by simp) fun _ _ _ => .expect_bind (by simp) fun _ _ _ => ?_
  exact .finish rfl (P.start_of_token ht) (.cons he .nil)

theorem begins_loop : P.Begins N false P.node (p.loop solve) (p'.loop solve') := by
  refine .advance_bind fun t t' ht => (hs.inner _).bind fun e e' he => ?_
  refine .expect_bind (by simp) fun _ _ _ => (follows_block hs).bind fun b b' hb => ?_
  exact .finish rfl (P.start_of_token ht) (.cons he (.cons hb .nil))

theorem begins_result : P.Begins N false P.node (p.result solve) (p'.result solve') := by
  refine .advance_bind fun t t' ht => .kind_bind fun k => ?_
  have hend : ∀ ⦃value value'⦄, List.Forall₂ P.node value value' →
      P.Follows N N true false P.node
        (expect .semicolon >>= fun _ => p.finish .returnStmt t.span.start value)
        (expect .semicolon >>= fun _ => p'.finish .returnStmt t'.span.start value') :=
    fun _ _ hvalue => .expect_bind (by simp) fun _ _ _ =>
      .finish rfl (P.start_of_token ht) hvalue
  apply Follows.ite
  · exact (Follows.pure .nil).bind hend
  · exact (hs.inner _).bind fun _ _ he => (Follows.pure (.cons he .nil)).bind hend

theorem begins_function : P.Begins N false P.node (p.function solve) (p'.function solve') := by
  refine .advance_bind fun t t' ht => .expect_bind (by simp) fun name name' hname => ?_
  refine (follows_params hs).bind fun params params' hparams => .kind_bind fun k => ?_
  have hbody : ∀ ⦃type type'⦄, List.Forall₂ P.node type type' →
      P.Follows N N true false P.node
        (expect .colon >>= fun _ => p.block solve >>= fun body =>
          p.finish .funDec t.span.start (ParseM.leaf .id name :: params :: type ++ [body]))
        (expect .colon >>= fun _ => p'.block solve' >>= fun body =>
          p'.finish .funDec t'.span.start (ParseM.leaf .id name' :: params' :: type' ++ [body])) := by
    intro type type' htype
    refine .expect_bind (by simp) fun _ _ _ => (follows_block hs).bind fun b b' hb => ?_
    have hrest := List.rel_append htype (.cons hb .nil)
    exact .finish rfl (P.start_of_token ht) (.cons (P.leaf hname rfl) (.cons hparams hrest))
  apply Follows.ite
  · refine Follows.advance.bind fun _ _ _ => (hs.inner _).bind fun type type' htype => ?_
    exact (Follows.pure (.cons htype .nil)).bind hbody
  · exact (Follows.pure .nil).bind hbody

/-- What follows the expression that a statement begins with. -/
theorem coupled_simpleStatement {c c' : Cursor}
    (hexpr : P.Coupled N true P.node (solve (.expr .default) c) (solve' (.expr .default) c')) :
    P.Coupled N false P.node (p.simpleStatement solve c) (p'.simpleStatement solve' c') := by
  refine hexpr.bind fun e e' he => .kind_bind fun k => ?_
  -- which statement it is depends on the rule of the expression, not on its text
  rw [P.rule_eq he]
  apply Follows.ite
  · apply Follows.ite
    · refine Follows.advance.bind fun _ _ _ => (hs.inner _).bind fun source source' hsource => ?_
      refine .expect_bind (by simp) fun _ _ _ => ?_
      exact .finish rfl (P.start_of_node he) (.cons he (.cons hsource .nil))
    · exact .throw (P.misplaced he _)
  · apply Follows.ite
    · exact .expect_bind (by simp) fun _ _ _ => .finish rfl (P.start_of_node he) (.cons he .nil)
    · exact .throw (P.misplaced he _)

section

variable {left left' : Node} (hleft : P.node left left')
include hleft

theorem follows_binary (power : Power) (hb : b ≤ N) :
    P.Follows b (b - 1) o true P.node (p.binary solve left power)
      (p'.binary solve' left' power) := by
  refine Follows.advance.bind fun t t' ht => (hs.follows _ hb).bind fun r r' hr => ?_
  exact .finish rfl (P.start_of_node hleft) (.cons hleft (.cons (P.leaf ht rfl) (.cons hr .nil)))

/-- What follows an operand may itself end with an operand, and so is open. -/
theorem follows_trailing (power : Power) (t : Trailing) (hb : b ≤ N) :
    P.Follows b (b - 1) o true P.node (p.trailing solve left power t)
      (p'.trailing solve' left' power t) := by
  have hstart := P.start_of_node hleft
  cases t with
  | binary => exact follows_binary hs hleft power hb
  | exponent => exact follows_binary hs hleft .unary hb
  | comparison =>
    refine (follows_binary hs hleft power hb).bind fun e e' he => .kind_bind fun k => ?_
    exact .ite (.unexpectedDetailed _) (.pure he)
  | call =>
    rw [Parser.trailing, Parser.trailing, Parser.call, Parser.call, P.rule_eq hleft]
    apply Follows.ite
    · refine Follows.advance.bind fun _ _ _ => ?_
      refine (follows_exprList hs (by decide) hb).bind fun _ _ hargs => ?_
      exact Follows.opened (.finish rfl hstart (.cons hleft hargs))
    · exact .unexpectedDetailed _
  | subscript =>
    refine Follows.advance.bind fun _ _ _ => (hs.follows _ hb).bind fun i i' hi => ?_
    refine .expect_bind (by simp) fun _ _ _ => ?_
    exact Follows.opened (.finish rfl hstart (.cons hleft (.cons hi .nil)))
  | arrayType =>
    refine (Follows.expect (by decide)).bind fun _ _ _ => .expect_bind (by simp) fun _ _ _ => ?_
    exact Follows.opened (.finish rfl hstart (.cons hleft .nil))

end

/-- The loop over operators looks at each token before it takes it. -/
theorem follows_extend (ops : Operators) (power : Power) (n : Nat) {left left' : Node}
    (hleft : P.node left left') (hb : b ≤ n) (hN : b ≤ N) :
    P.Follows b b true true P.node (p.extend solve ops power n left)
      (p'.extend solve' ops power (n + P.excess) left') := by
  induction n generalizing b left left' with
  | zero =>
    rw [Nat.le_zero.1 hb]
    exact .of_zero fun _ hc => .error hc
  | succ n ih =>
    rw [Nat.add_right_comm]
    refine .kind_bind fun k => ?_
    apply Follows.ite
    · split
      · exact .unexpected
      · refine (follows_trailing hs hleft _ _ hN).bind fun _ _ hnode => ?_
        exact (ih (b := b - 1) hnode (by omega) (by omega)).mono (Nat.le_refl _) (Nat.sub_le b 1)
    · exact .pure hleft

/-! ## Goals -/

/-- The constructs that the family begins with take a token. -/
def Family (P : Pairing p p') (N : Nat) (solve solve' : Goal → ParseM Node) (ops : Operators) :
    Prop :=
  ∀ ⦃k l⦄, ops.leading k = some l →
    k ≠ .endOfText ∧ P.Begins N true P.node (p.leading solve l) (p'.leading solve' l)

/-- No operator of expressions begins with the end of the text. -/
theorem family_expressions : P.Family N solve solve' .expressions := by
  intro k l hl
  refine ⟨fun hk => ?_, ?_⟩
  · rw [hk] at hl
    cases hl
  rcases Operators.leading_expressions hl with ⟨rfl, -⟩ | ⟨rfl, -⟩ | ⟨rfl, -⟩ | ⟨rfl, -⟩
  · exact begins_primary.opened
  · exact begins_unary hs
  · exact (begins_grouping hs).opened
  · exact (begins_array hs).opened

omit hs in
theorem family_types : P.Family N solve solve' .types := by
  intro k l hl
  cases k <;> cases hl
  exact ⟨by decide, begins_namedType.opened⟩

/-- An expression or a type, from its first token to the one that does not continue it. -/
theorem coupled_operand {ops : Operators} (hops : P.Family N solve solve' ops) (power : Power)
    {c c' : Cursor} (hhere : P.here c c') (hN : c.remaining ≤ N + 1) :
    P.Coupled N true P.node (p.operand solve ops power c) (p'.operand solve' ops power c') := by
  rw [Parser.operand, Parser.operand, kind_bind_apply, kind_bind_apply, ← P.kind_eq hhere]
  cases hl : ops.leading c.kind with
  | none => exact .error (P.unexpected hhere)
  | some l =>
    refine ((hops hl).2 hhere (hops hl).1 hN).bind fun left left' hleft => ?_
    refine .remaining_bind (p.extend solve ops power · left) (p'.extend solve' ops power · left')
      fun n b hn hb => ?_
    exact (follows_extend hs ops power n hleft hn hb).mono (Nat.le_refl b) hb

theorem begins_keyword {k : TokenKind} {l : Leading} (hl : Grammar.standard.statement k = some l) :
    k ≠ .endOfText ∧ P.Begins N false P.node (p.leading solve l) (p'.leading solve' l) := by
  cases k <;> cases hl
  all_goals refine ⟨by decide, ?_⟩
  · exact begins_declaration hs
  · exact begins_function hs
  · exact begins_result hs
  · exact begins_loop hs
  · exact begins_print hs

variable (hp : p.grammar = .standard)
include hp

omit hs in
/-- A reading that is lost has nothing left to begin with. -/
theorem run_of_lost (n : Nat) (goal : Goal) {c : Cursor} (hc : P.lost c) :
    ∃ d c₁, p.run n goal c = .error d c₁ := by
  have hk := P.kind_of_lost hc
  induction n generalizing goal with
  | zero => exact ⟨_, _, rfl⟩
  | succ n ih =>
    cases goal with
    | expr power =>
      rw [Parser.run, Parser.step, Parser.operand, kind_bind_apply, hk, hp]
      exact ⟨_, _, rfl⟩
    | type power =>
      rw [Parser.run, Parser.step, Parser.operand, kind_bind_apply, hk, hp]
      exact ⟨_, _, rfl⟩
    | stmt =>
      obtain ⟨d, c₁, h⟩ := ih (.expr .default)
      rw [Parser.run, Parser.step, Parser.statement, kind_bind_apply, hk, hp]
      exact ⟨d, c₁, Outcome.bind_eq_error.2 (.inl h)⟩

variable (hp' : p'.grammar = .standard)
include hp'

/-- A statement, by its first token or by the expression that it begins with. -/
theorem coupled_statement {c c' : Cursor} (hhere : P.here c c') (hN : c.remaining ≤ N + 1)
    (hexpr : P.Coupled N true P.node (solve (.expr .default) c) (solve' (.expr .default) c')) :
    P.Coupled N false P.node (p.statement solve c) (p'.statement solve' c') := by
  rw [Parser.statement, Parser.statement, kind_bind_apply, kind_bind_apply, ← P.kind_eq hhere, hp,
    hp']
  cases hl : Grammar.standard.statement c.kind with
  | none => exact coupled_simpleStatement hs hexpr
  | some l =>
    obtain ⟨hk, hbegins⟩ := begins_keyword hs hl
    exact hbegins hhere hk hN

end Pairing

namespace ParseM

variable {item : ParseM Node} {c c₁ : Cursor} {n : Nat}

theorem untilEnd_of_end (hk : c.kind = .endOfText) : untilEnd item (n + 1) c = .ok [] c := by
  rw [untilEnd, kind_bind_apply, if_pos hk]
  rfl

theorem untilEnd_of_ok {node : Node} (hk : c.kind ≠ .endOfText) (h : item c = .ok node c₁) :
    untilEnd item (n + 1) c = (untilEnd item n >>= fun nodes => pure (node :: nodes)) c₁ := by
  rw [untilEnd, kind_bind_apply, if_neg hk]
  change EStateM.bind item _ c = _
  rw [EStateM.bind, h]

theorem untilEnd_of_error {d : Diagnostic} (hk : c.kind ≠ .endOfText) (h : item c = .error d c₁) :
    untilEnd item (n + 1) c = .error d c₁ := by
  rw [untilEnd, kind_bind_apply, if_neg hk]
  exact Outcome.bind_eq_error.2 (.inl h)

end ParseM

/-- How deep the goals in a goal can be nested: each one takes a token before the next one begins,
but for the expression that a statement may begin with. -/
def Goal.depthAt (c : Cursor) : Goal → Nat
  | .expr _ | .type _ => 2 * c.remaining + 1
  | .stmt => 2 * c.remaining + 2

theorem Goal.lt_depthAt (goal : Goal) (c : Cursor) : 2 * c.remaining < goal.depthAt c := by
  cases goal <;> simp only [depthAt] <;> omega

theorem Goal.depthAt_le (goal : Goal) (c : Cursor) : goal.depthAt c ≤ 2 * c.remaining + 2 := by
  cases goal <;> simp only [depthAt] <;> omega

namespace Pairing

variable {p p' : Parser} {P : Pairing p p'}

variable (P) in
/-- Results that correspond, wherever the cursors stand. -/
inductive Ends : EStateM.Result Diagnostic Cursor (List Node) →
    EStateM.Result Diagnostic Cursor (List Node) → Prop where
  | ok : List.Forall₂ P.node ns ns' → Ends (.ok ns c) (.ok ns' c')
  | error : P.fault d d' → Ends (.error d c) (.error d' c')

theorem Ends.exists_eq {r r' : EStateM.Result Diagnostic Cursor (List Node)} (h : P.Ends r r') :
    (∃ ns c ns' c', r = .ok ns c ∧ r' = .ok ns' c' ∧ List.Forall₂ P.node ns ns') ∨
      ∃ d c d' c', r = .error d c ∧ r' = .error d' c' ∧ P.fault d d' := by
  cases h with
  | ok hns => exact .inl ⟨_, _, _, _, rfl, rfl, hns⟩
  | error hd => exact .inr ⟨_, _, _, _, rfl, rfl, hd⟩

/-- One more statement in front. -/
theorem Ends.cons {m m' : ParseM (List Node)} {c c' : Cursor} {n n' : Node}
    (h : P.Ends (m c) (m' c')) (hn : P.node n n') :
    P.Ends ((m >>= fun ns => pure (n :: ns)) c) ((m' >>= fun ns => pure (n' :: ns)) c') := by
  change P.Ends (EStateM.bind m _ c) (EStateM.bind m' _ c')
  unfold EStateM.bind
  generalize m c = r, m' c' = r' at h
  cases h with
  | ok hns => exact .ok (.cons hn hns)
  | error hd => exact .error hd

variable (hp : p.grammar = .standard) (hp' : p'.grammar = .standard)
include hp hp'

/-- A goal is read side by side to any two depths that suffice for the tokens. -/
theorem coupled_run (n n' : Nat) (goal : Goal) {c c' : Cursor} (hhere : P.here c c')
    (hn : goal.depthAt c ≤ n) (hn' : goal.depthAt c ≤ n') :
    P.Coupled (c.remaining - 1) goal.isOpen P.node (p.run n goal c) (p'.run n' goal c') := by
  induction n generalizing n' goal c c' with
  | zero => exact absurd (goal.lt_depthAt c) (by omega)
  | succ n ih =>
    have hlt := goal.lt_depthAt c
    have hpos : 0 < c.remaining := Nat.succ_pos _
    obtain ⟨n', rfl⟩ : ∃ m, n' = m + 1 := Nat.exists_eq_succ_of_ne_zero (by omega)
    have hs : P.Solving (c.remaining - 1) (p.run n) (p'.run n') := by
      refine ⟨fun inner d d' hd hr => ?_, fun inner d hd => run_of_lost hp n inner hd⟩
      have hle := inner.depthAt_le d
      exact ih n' inner hd (by omega) (by omega)
    have hN : c.remaining ≤ c.remaining - 1 + 1 := by omega
    cases goal with
    | expr power =>
      rw [Parser.run, Parser.run, Parser.step, Parser.step, hp, hp']
      exact coupled_operand hs (family_expressions hs) power hhere hN
    | type power =>
      rw [Parser.run, Parser.run, Parser.step, Parser.step, hp, hp']
      exact coupled_operand hs family_types power hhere hN
    | stmt =>
      -- the expression that it may begin with is read at the same token, with the depth that is left
      refine coupled_statement hs hp hp' hhere hN (ih n' (.expr .default) hhere ?_ ?_)
      · exact Nat.le_of_succ_le_succ hn
      · exact Nat.le_of_succ_le_succ hn'

/-- Statements up to the end are read side by side if neither reading goes on alone, whatever their
number may be, as long as there are not more of them than tokens. -/
theorem ends_untilEnd (hlost : ∀ c, ¬P.lost c) {n n' m m' : Nat} {c c' : Cursor}
    (hhere : P.here c c') (hn : 2 * c.remaining + 2 ≤ n) (hn' : 2 * c.remaining + 2 ≤ n')
    (hm : c.remaining ≤ m) (hm' : c.remaining ≤ m') :
    P.Ends (untilEnd (p.run n .stmt) m c) (untilEnd (p'.run n' .stmt) m' c') := by
  induction m generalizing m' c c' with
  | zero => exact absurd hm (Nat.not_succ_le_zero _)
  | succ m ih =>
    obtain ⟨m', rfl⟩ : ∃ l, m' = l + 1 := Nat.exists_eq_succ_of_ne_zero (by
      have : 0 < c.remaining := Nat.succ_pos _
      omega)
    by_cases hk : c.kind = .endOfText
    · rw [untilEnd_of_end hk, untilEnd_of_end (P.kind_eq hhere ▸ hk)]
      exact .ok .nil
    have hk' : c'.kind ≠ .endOfText := P.kind_eq hhere ▸ hk
    have hstmt := coupled_run hp hp' n n' .stmt hhere hn hn'
    rcases hstmt.exists_eq hlost with ⟨node, c₁, node', c₁', hr, hr', hnode, hpast, hle⟩ |
      ⟨d, c₁, d', c₁', hr, hr', hd⟩
    · rw [untilEnd_of_ok hk hr, untilEnd_of_ok hk' hr']
      have hhere₁ := (P.look hpast).resolve_right (hlost c₁)
      exact (ih hhere₁ (by omega) (by omega) (by omega) (by omega)).cons hnode
    · rw [untilEnd_of_error hk hr, untilEnd_of_error hk' hr']
      exact .error hd

end Pairing

end Scriptlet
