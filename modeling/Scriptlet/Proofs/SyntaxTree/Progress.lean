import Scriptlet.Proofs.SyntaxTree.Cover

/-!
Reading goes forward and comes to an end, whatever the tokens are. A construct takes a token before it
asks for another construct, but for the expression that a statement may begin with, so that the
depth and the numbers of steps that the tokens allow are never used up. A token that ends the text is
never taken, and so the tokens behind it make no difference: all constructs are read side by side
from a cursor and from one with more tokens behind its own.
-/

namespace Scriptlet

open ParseM

/-! ## Cursors -/

namespace Cursor

variable {c c₁ c₂ : Cursor} {ys : List Token}

/-- The cursor with more tokens behind its own. -/
def followedBy (c : Cursor) (ys : List Token) : Cursor := { c with upcoming := c.upcoming ++ ys }

/-- The second cursor is reached by taking tokens, none of which ends the text. -/
def LeadsTo (c c₁ : Cursor) : Prop :=
  ∃ ts : List Token, (∀ t ∈ ts, t.kind ≠ .endOfText) ∧ c.tokens = ts ++ c₁.tokens

theorem followedBy_nil (c : Cursor) : c.followedBy [] = c := by
  rw [followedBy, List.append_nil]

theorem remaining_followedBy (c : Cursor) (ys : List Token) :
    (c.followedBy ys).remaining = c.remaining + ys.length := by
  rw [remaining, remaining, followedBy, List.length_append, Nat.add_right_comm]

/-- More tokens behind the end are not seen before the end is reached. -/
theorem Ended.next_followedBy (h : c.Ended) (hk : c.kind ≠ .endOfText) :
    (c.followedBy ys).next = c.next.followedBy ys := by
  have ht := (h.take rfl hk).1
  obtain ⟨previous, current, _ | ⟨u, us⟩⟩ := c
  · cases ht
  · rfl

theorem LeadsTo.refl (c : Cursor) : c.LeadsTo c := ⟨[], List.forall_mem_nil _, rfl⟩

theorem LeadsTo.trans (h : c.LeadsTo c₁) (h' : c₁.LeadsTo c₂) : c.LeadsTo c₂ := by
  obtain ⟨ts, hts, htokens⟩ := h
  obtain ⟨us, hus, htokens'⟩ := h'
  refine ⟨ts ++ us, List.forall_mem_append.2 ⟨hts, hus⟩, ?_⟩
  rw [htokens, htokens', List.append_assoc]

theorem Ended.leadsTo_next (h : c.Ended) (hk : c.kind ≠ .endOfText) : c.LeadsTo c.next :=
  ⟨[c.current], List.forall_mem_singleton.2 hk, (h.takes hk).tokens⟩

/-- The end of the text is still ahead where fewer tokens are left. -/
theorem ended_of_suffix (h : c.Ended) (hsuffix : c₁.tokens <:+ c.tokens) : c₁.Ended := by
  obtain ⟨t, ht, hk⟩ := h
  obtain ⟨ts, hts⟩ := hsuffix
  refine ⟨t, ?_, hk⟩
  change (c.tokens.map Token.terminal).getLast? = some t at ht
  rw [← hts, List.map_append, List.getLast?_append] at ht
  change (c₁.tokens.map Token.terminal).getLast? = some t
  cases hlast : (c₁.tokens.map Token.terminal).getLast? with
  | none => cases List.getLast?_eq_none_iff.1 hlast
  | some u => rwa [hlast] at ht

theorem LeadsTo.ended (h : c.LeadsTo c₁) (hc : c.Ended) : c₁.Ended := by
  obtain ⟨ts, -, htokens⟩ := h
  exact ended_of_suffix hc ⟨ts, htokens.symm⟩

/-- The tokens of a list are ended, if not by its last one then by one that is added. -/
theorem ended_ofTokens (tokens : List Token) : (ofTokens tokens).Ended := by
  cases tokens with
  | nil => exact ⟨_, rfl, rfl⟩
  | cons t ts =>
    rw [Ended, terminals, ofTokens]
    by_cases hk : (ts.getLast?.getD t).kind = .endOfText
    · refine ⟨(ts.getLast?.getD t).terminal, ?_, hk⟩
      rw [closing, if_pos hk, List.append_nil, List.getLast?_map, List.getLast?_cons]
      rfl
    · refine ⟨(Token.endOfText (ts.getLast?.getD t).span.stop).terminal, ?_, rfl⟩
      rw [closing, if_neg hk, List.getLast?_map, ← List.cons_append, List.getLast?_concat]
      rfl

end Cursor

/-! ## Steps -/

namespace ParseM

/-- The result with more tokens behind the cursor. -/
def followedBy {α : Type} (ys : List Token) :
    EStateM.Result Diagnostic Cursor α → EStateM.Result Diagnostic Cursor α
  | .ok a c => .ok a (c.followedBy ys)
  | .error d c => .error d (c.followedBy ys)

/-- The result of a reading from the cursor: it has gone forward, with at most `b` tokens left if it
has succeeded, and it has not failed for want of depth. -/
def Advances {α : Type} (c : Cursor) (b : Nat) : EStateM.Result Diagnostic Cursor α → Prop
  | .ok _ c₁ => c.LeadsTo c₁ ∧ c₁.remaining ≤ b
  | .error d c₁ => c.LeadsTo c₁ ∧ d.cause ≠ .nestingTooDeep

variable {α β : Type} {ys : List Token} {b b₁ b₂ N : Nat} {k : TokenKind} {c : Cursor}

/-- From cursors at a token of the kind, with at most `b` tokens left, the steps `m` go forward to
ones with at most `b₁`, and `m'` does the same with more tokens behind. -/
def PacedAt (ys : List Token) (k : TokenKind) (b b₁ : Nat) (m m' : ParseM α) : Prop :=
  ∀ ⦃c : Cursor⦄, c.Ended → c.kind = k → c.remaining ≤ b →
    Advances c b₁ (m c) ∧ m' (c.followedBy ys) = followedBy ys (m c)

/-- The same at a token of any kind. -/
def Paced (ys : List Token) (b b₁ : Nat) (m m' : ParseM α) : Prop := ∀ k, PacedAt ys k b b₁ m m'

theorem followedBy_nil (r : EStateM.Result Diagnostic Cursor α) : followedBy [] r = r := by
  cases r with
  | ok a c => rw [followedBy, c.followedBy_nil]
  | error d c => rw [followedBy, c.followedBy_nil]

theorem Advances.mono {r : EStateM.Result Diagnostic Cursor α} (h : Advances c b r) (hb : b ≤ b₁) :
    Advances c b₁ r := by
  cases r with
  | ok a c₁ => exact ⟨h.1, Nat.le_trans h.2 hb⟩
  | error d c₁ => exact h

/-- What goes forward from a later cursor goes forward. -/
theorem Advances.of_leadsTo {c₁ : Cursor} {r : EStateM.Result Diagnostic Cursor α}
    (h : Advances c₁ b r) (hc : c.LeadsTo c₁) : Advances c b r := by
  cases r with
  | ok a c₂ => exact ⟨hc.trans h.1, h.2⟩
  | error d c₂ => exact ⟨hc.trans h.1, h.2⟩

namespace PacedAt

variable {m m' n n' : ParseM α} {f f' : α → ParseM β}

theorem mono (h : PacedAt ys k b b₁ m m') {b₀ : Nat} (hb : b₀ ≤ b) (hb₁ : b₁ ≤ b₂) :
    PacedAt ys k b₀ b₂ m m' :=
  fun _ hc hk hr => ((h hc hk (Nat.le_trans hr hb)).imp_left fun hm => hm.mono hb₁)

/-- Steps in sequence go forward, the second with what the first has left. -/
theorem bind (h : PacedAt ys k b b₁ m m') (hf : ∀ a, Paced ys b₁ b₂ (f a) (f' a)) :
    PacedAt ys k b b₂ (m >>= f) (m' >>= f') := by
  intro c hc hk hr
  obtain ⟨hadvances, heq⟩ := h hc hk hr
  change Advances c b₂ (EStateM.bind m f c) ∧
    EStateM.bind m' f' (c.followedBy ys) = followedBy ys (EStateM.bind m f c)
  unfold EStateM.bind
  rw [heq]
  cases hm : m c with
  | ok a c₁ =>
    rw [hm] at hadvances
    obtain ⟨hleads, hr₁⟩ := hadvances
    obtain ⟨hrest, heq'⟩ := hf a _ (hleads.ended hc) rfl hr₁
    exact ⟨hrest.of_leadsTo hleads, heq'⟩
  | error d c₁ =>
    rw [hm] at hadvances
    exact ⟨hadvances, rfl⟩

theorem ite {Q : Prop} [Decidable Q] (hm : Q → PacedAt ys k b b₁ m m')
    (hn : ¬Q → PacedAt ys k b b₁ n n') :
    PacedAt ys k b b₁ (if Q then m else n) (if Q then m' else n') := by
  by_cases hq : Q
  · rw [if_pos hq, if_pos hq]
    exact hm hq
  · rw [if_neg hq, if_neg hq]
    exact hn hq

/-- Only a token that does not end the text is taken without asking for its kind. -/
theorem advance_bind {f f' : Token → ParseM β} (hk : k ≠ .endOfText)
    (hf : ∀ t, Paced ys (b - 1) b₁ (f t) (f' t)) :
    PacedAt ys k b b₁ (advance >>= f) (advance >>= f') := by
  have hadvance : PacedAt ys k b (b - 1) advance advance := by
    intro c hc hck hr
    have hne : c.kind ≠ .endOfText := hck ▸ hk
    have hlt := hc.remaining_next hne
    refine ⟨⟨hc.leadsTo_next hne, by omega⟩, ?_⟩
    change EStateM.Result.ok c.current (c.followedBy ys).next = _
    rw [hc.next_followedBy hne]
    rfl
  exact hadvance.bind hf

end PacedAt

namespace Paced

variable {m m' n n' : ParseM α}

theorem mono (h : Paced ys b b₁ m m') {b₀ : Nat} (hb : b₀ ≤ b) (hb₁ : b₁ ≤ b₂) :
    Paced ys b₀ b₂ m m' :=
  fun k => (h k).mono hb hb₁

/-- That a token was taken can be forgotten. -/
theorem keep (h : Paced ys b (b - 1) m m') : Paced ys b b m m' :=
  h.mono (Nat.le_refl b) (Nat.sub_le b 1)

theorem bind {f f' : α → ParseM β} (h : Paced ys b b₁ m m')
    (hf : ∀ a, Paced ys b₁ b₂ (f a) (f' a)) : Paced ys b b₂ (m >>= f) (m' >>= f') :=
  fun k => (h k).bind hf

/-- Steps that take a token at least, wherever they start. -/
theorem of_remaining (h : ∀ ⦃c : Cursor⦄, c.Ended → c.remaining ≤ b →
      Advances c (c.remaining - 1) (m c) ∧ m' (c.followedBy ys) = followedBy ys (m c)) :
    Paced ys b (b - 1) m m' :=
  fun _ _ hc _ hr => (h hc hr).imp_left fun hm => hm.mono (Nat.sub_le_sub_right hr 1)

/-- There is no cursor with nothing left. -/
theorem of_zero : Paced ys 0 b₁ m m' :=
  fun _ _ _ _ hr => absurd hr (Nat.not_succ_le_zero _)

theorem pure (a : α) : Paced ys b b (pure a) (pure a) :=
  fun _ _ _ _ hr => ⟨⟨.refl _, hr⟩, rfl⟩

theorem throw {d : Diagnostic} (h : d.cause ≠ .nestingTooDeep) :
    Paced ys b b₁ (throw d : ParseM α) (throw d) :=
  fun _ _ _ _ _ => ⟨⟨.refl _, h⟩, rfl⟩

theorem unexpected : Paced ys b b₁ (ParseM.unexpected : ParseM α) ParseM.unexpected :=
  fun _ _ _ _ _ => ⟨⟨.refl _, by simp [Cursor.unexpected]⟩, rfl⟩

theorem unexpectedDetailed (message : String) :
    Paced ys b b₁ (ParseM.unexpectedDetailed message : ParseM α)
      (ParseM.unexpectedDetailed message) :=
  fun _ _ _ _ _ => ⟨⟨.refl _, by simp [Cursor.unexpectedDetailed]⟩, rfl⟩

theorem kind_bind {f f' : TokenKind → ParseM β} (hf : ∀ k, PacedAt ys k b b₁ (f k) (f' k)) :
    Paced ys b b₁ (kind >>= f) (kind >>= f') := by
  intro k c hc hk hr
  subst hk
  exact hf c.kind hc rfl hr

/-- Steps that depend on how many tokens are left. -/
theorem remaining_bind (f f' : Nat → ParseM β)
    (hf : ∀ n n' ⦃b₀⦄, b₀ ≤ n → b₀ ≤ n' → b₀ ≤ b → Paced ys b₀ b₁ (f n) (f' n')) :
    Paced ys b b₁ (get >>= fun c => f c.remaining) (get >>= fun c => f' c.remaining) := by
  intro k c hc hk hr
  have hle : c.remaining ≤ (c.followedBy ys).remaining := by
    rw [c.remaining_followedBy]
    exact Nat.le_add_right ..
  exact hf _ _ (Nat.le_refl _) hle hr k hc hk (Nat.le_refl _)

theorem expectOr {d : Cursor → Diagnostic} (hne : k ≠ .endOfText)
    (hd : ∀ c : Cursor, d (c.followedBy ys) = d c ∧ (d c).cause ≠ .nestingTooDeep) :
    Paced ys b (b - 1) (get >>= fun c => expectOr k (d c)) (get >>= fun c => expectOr k (d c)) := by
  intro k' c hc _ hr
  rw [get_bind_apply, get_bind_apply, expectOr_apply, expectOr_apply, (hd c).1]
  change _ ∧ (if c.kind = k then _ else _) = _
  by_cases hk : c.kind = k
  · have hne : c.kind ≠ .endOfText := hk ▸ hne
    have hlt := hc.remaining_next hne
    rw [if_pos hk, if_pos hk, hc.next_followedBy hne]
    exact ⟨⟨hc.leadsTo_next hne, by omega⟩, rfl⟩
  · rw [if_neg hk, if_neg hk]
    exact ⟨⟨.refl c, (hd c).2⟩, rfl⟩

/-- A token that is asked for is taken, and leaves one fewer. -/
theorem expect (hne : k ≠ .endOfText) : Paced ys b (b - 1) (expect k) (expect k) :=
  expectOr hne fun c => ⟨rfl, by simp [Cursor.unexpected]⟩

theorem expectDetailed (hne : k ≠ .endOfText) (message : String) :
    Paced ys b (b - 1) (get >>= fun c => ParseM.expectOr k (c.unexpectedDetailed message))
      (get >>= fun c => ParseM.expectOr k (c.unexpectedDetailed message)) :=
  expectOr hne fun c => ⟨rfl, by simp [Cursor.unexpectedDetailed]⟩

theorem expect_bind {f f' : Token → ParseM β} (hne : k ≠ .endOfText)
    (hf : ∀ t, Paced ys b b₁ (f t) (f' t)) :
    Paced ys b b₁ (ParseM.expect k >>= f) (ParseM.expect k >>= f') :=
  (expect hne).keep.bind hf

theorem finish {p : Parser} {rule : Rule} {start : Position} {ns : List Node} :
    Paced ys b b (p.finish rule start ns) (p.finish rule start ns) :=
  fun _ _ _ _ hr => ⟨⟨.refl _, hr⟩, rfl⟩

end Paced

/-! ## Lists -/

/-- Steps that are repeated up to a number of times: it is enough that each takes a token before the
others follow, as long as there are not more of them than tokens. -/
theorem paced_repeated {ι : Type} (F F' : Nat → ι → ParseM α) (g : Nat → Nat)
    (step : ∀ n n' i ⦃b⦄, b < N → (∀ j ⦃b₀⦄, b₀ ≤ b → Paced ys b₀ (g b₀) (F n j) (F' n' j)) →
      Paced ys (b + 1) (g (b + 1)) (F (n + 1) i) (F' (n' + 1) i))
    (n n' : Nat) (i : ι) (hb : b ≤ n) (hb' : b ≤ n') (hN : b ≤ N) :
    Paced ys b (g b) (F n i) (F' n' i) := by
  induction n generalizing b n' i with
  | zero =>
    rw [Nat.le_zero.1 hb]
    exact .of_zero
  | succ n ih =>
    cases b with
    | zero => exact .of_zero
    | succ b =>
      obtain ⟨n', rfl⟩ : ∃ m, n' = m + 1 := Nat.exists_eq_succ_of_ne_zero (by omega)
      refine step n n' i hN fun j b₀ hle => ?_
      exact ih n' j (by omega) (by omega) (by omega)

section Lists

variable {item item' : ParseM Node} (hitem : ∀ ⦃b⦄, b ≤ N → Paced ys b (b - 1) item item')
  (n n' : Nat) (hb : b ≤ n) (hb' : b ≤ n') (hN : b ≤ N)
include hitem hb hb' hN

/-- A list takes a token at least. The bound on its rounds is never reached, as each takes one. -/
theorem paced_commaSeparated :
    Paced ys b (b - 1) (commaSeparated item n) (commaSeparated item' n') := by
  refine paced_repeated (fun n (_ : Unit) => commaSeparated item n)
    (fun n _ => commaSeparated item' n) (· - 1) (fun n n' _ b hN ih => ?_) n n' () hb hb' hN
  refine (hitem hN).bind fun node => .kind_bind fun k => .ite (fun hk => ?_) fun _ => ?_
  · refine .advance_bind (hk ▸ by decide) fun _ => ?_
    have hrest := ih () (Nat.sub_le b 1)
    exact (hrest.mono (Nat.le_refl _) (by omega)).bind fun _ => .pure _
  · exact Paced.pure _ k

/-- A row of statements may be empty. -/
theorem paced_untilClosed : Paced ys b b (untilClosed item n) (untilClosed item' n') := by
  refine paced_repeated (fun n (_ : Unit) => untilClosed item n)
    (fun n _ => untilClosed item' n) id (fun n n' _ b hN ih => ?_) n n' () hb hb' hN
  refine .kind_bind fun k => ?_
  split
  · exact Paced.pure _ _
  · exact Paced.unexpectedDetailed _ _
  · refine Paced.bind (hitem hN) (fun node => ?_) k
    exact ((ih () (Nat.le_refl b)).mono (Nat.le_refl b) (Nat.le_succ b)).bind fun _ => .pure _

theorem paced_untilEnd : Paced ys b b (untilEnd item n) (untilEnd item' n') := by
  refine paced_repeated (fun n (_ : Unit) => untilEnd item n)
    (fun n _ => untilEnd item' n) id (fun n n' _ b hN ih => ?_) n n' () hb hb' hN
  refine .kind_bind fun k => .ite (fun _ => Paced.pure _ k) fun _ => ?_
  refine Paced.bind (hitem hN) (fun node => ?_) k
  exact ((ih () (Nat.le_refl b)).mono (Nat.le_refl b) (Nat.le_succ b)).bind fun _ => .pure _

end Lists

end ParseM

/-! ## Constructs -/

namespace Parser

variable {p : Parser} {ys : List Token} {b N : Nat} {k : TokenKind}
  {solve solve' : Goal → ParseM Node}

/-- Goals take a token at least, from cursors with at most `N` tokens left. -/
def Solves (ys : List Token) (N : Nat) (solve solve' : Goal → ParseM Node) : Prop :=
  ∀ goal ⦃b⦄, b ≤ N → Paced ys b (b - 1) (solve goal) (solve' goal)

variable (hs : Solves ys N solve solve')
include hs

theorem Solves.inner (goal : Goal) (hb : b ≤ N) : Paced ys b b (solve goal) (solve' goal) :=
  (hs goal hb).keep

/-- A list of expressions takes its closing bracket. -/
theorem paced_exprList {close : TokenKind} (hclose : close ≠ .endOfText) (hb : b ≤ N) :
    Paced ys b (b - 1) (exprList solve close) (exprList solve' close) := by
  have hend : ∀ items : List Node, Paced ys b (b - 1) (expect close >>= fun _ => pure items)
      (expect close >>= fun _ => pure items) :=
    fun items => (Paced.expect hclose).bind fun _ => .pure items
  refine .kind_bind fun k => .ite (fun _ => ?_) fun _ => ?_
  · exact (Paced.pure []).bind hend k
  · refine Paced.remaining_bind (fun n => commaSeparated (solve (.expr .default)) n >>= _)
      (fun n => commaSeparated (solve' (.expr .default)) n >>= _) (fun n n' b₀ hn hn' hb₀ => ?_) k
    have hitems := paced_commaSeparated (hs (.expr .default)) n n' hn hn' (Nat.le_trans hb₀ hb)
    exact (hitems.mono (Nat.le_refl b₀) (by omega)).bind hend

theorem paced_param (hb : b ≤ N) :
    Paced ys b (b - 1) (p.param solve) (p.param solve') := by
  refine (Paced.expect (by decide)).bind fun name => .expect_bind (by decide) fun _ => ?_
  refine (hs.inner _ (Nat.le_trans (Nat.sub_le b 1) hb)).bind fun type => ?_
  exact .finish

theorem paced_params (hb : b ≤ N) : Paced ys b b (p.params solve) (p.params solve') := by
  refine .expect_bind (by decide) fun t => .kind_bind fun k => ?_
  have hend : ∀ items : List Node, Paced ys b b
      (expect .closeParen >>= fun _ => p.finish .params t.span.start items)
      (expect .closeParen >>= fun _ => p.finish .params t.span.start items) :=
    fun items => .expect_bind (by decide) fun _ => .finish
  refine .ite (fun _ => (Paced.pure []).bind hend k) fun _ => ?_
  refine Paced.remaining_bind (fun n => commaSeparated (p.param solve) n >>= _)
    (fun n => commaSeparated (p.param solve') n >>= _) (fun n n' b₀ hn hn' hb₀ => ?_) k
  have hitems := paced_commaSeparated (fun _ => paced_param (p := p) hs) n n' hn hn'
    (Nat.le_trans hb₀ hb)
  exact (hitems.mono (Nat.le_refl b₀) (by omega)).bind hend

/-- The parenthesis that opens a block is taken before its statements. -/
theorem paced_block (hb : b ≤ N + 1) : Paced ys b (b - 1) (p.block solve) (p.block solve') := by
  refine (Paced.expect (by decide)).bind fun t => ?_
  refine .remaining_bind (fun n => untilClosed (solve .stmt) n >>= _)
    (fun n => untilClosed (solve' .stmt) n >>= _) fun n n' b₀ hn hn' hb₀ => ?_
  have hstatements := paced_untilClosed (hs .stmt) n n' hn hn' (by omega)
  refine (hstatements.mono (Nat.le_refl b₀) hb₀).bind fun _ => ?_
  exact .expect_bind (by decide) fun _ => .finish

omit hs in
theorem paced_primary : Paced ys b (b - 1) primary primary := by
  have hleaf : ∀ {k : TokenKind} {rule : Rule}, k ≠ .endOfText →
      PacedAt ys k b (b - 1) (advance >>= fun t => pure (leaf rule t))
        (advance >>= fun t => pure (leaf rule t)) :=
    fun hk => .advance_bind hk fun _ => .pure _
  refine .kind_bind fun k => ?_
  split
  iterate 5 exact hleaf (by decide)
  exact (Paced.unexpected _).bind fun _ => Paced.of_zero

omit hs in
theorem paced_namedType : Paced ys b (b - 1) namedType namedType :=
  (Paced.expect (by decide)).bind fun _ => .pure _

section

variable (hk : k ≠ .endOfText) (hb : b ≤ N + 1)
include hk hb

theorem paced_unary : PacedAt ys k b (b - 1) (p.unary solve) (p.unary solve') :=
  .advance_bind hk fun _ => (hs.inner _ (by omega)).bind fun _ => .finish

theorem paced_grouping : PacedAt ys k b (b - 1) (grouping solve) (grouping solve') := by
  refine .advance_bind hk fun _ => (hs.inner _ (by omega)).bind fun _ => ?_
  exact .expect_bind (by decide) fun _ => .pure _

theorem paced_array : PacedAt ys k b (b - 1) (p.array solve) (p.array solve') := by
  refine .advance_bind hk fun _ => ?_
  exact (paced_exprList hs (by decide) (by omega)).keep.bind fun _ => .finish

theorem paced_declaration :
    PacedAt ys k b (b - 1) (p.declaration solve) (p.declaration solve') := by
  refine .advance_bind hk fun t => ?_
  rw [← bind_assoc, ← bind_assoc]
  refine (Paced.expectDetailed (by decide) _).keep.bind fun name => ?_
  refine .expect_bind (by decide) fun _ => (hs.inner _ (by omega)).bind fun _ => ?_
  exact .expect_bind (by decide) fun _ => .finish

theorem paced_print : PacedAt ys k b (b - 1) (p.print solve) (p.print solve') := by
  refine .advance_bind hk fun _ => .expect_bind (by decide) fun _ => ?_
  refine (hs.inner _ (by omega)).bind fun _ => .expect_bind (by decide) fun _ => ?_
  exact .expect_bind (by decide) fun _ => .finish

theorem paced_loop : PacedAt ys k b (b - 1) (p.loop solve) (p.loop solve') := by
  refine .advance_bind hk fun _ => (hs.inner _ (by omega)).bind fun _ => ?_
  refine .expect_bind (by decide) fun _ => ?_
  exact (paced_block hs (by omega)).keep.bind fun _ => .finish

theorem paced_result : PacedAt ys k b (b - 1) (p.result solve) (p.result solve') := by
  refine .advance_bind hk fun t => .kind_bind fun k => ?_
  have hend : ∀ value : List Node, Paced ys (b - 1) (b - 1)
      (expect .semicolon >>= fun _ => p.finish .returnStmt t.span.start value)
      (expect .semicolon >>= fun _ => p.finish .returnStmt t.span.start value) :=
    fun value => .expect_bind (by decide) fun _ => .finish
  refine .ite (fun _ => (Paced.pure []).bind hend k) fun _ => ?_
  exact Paced.bind (hs.inner _ (by omega)) (fun e => (Paced.pure [e]).bind hend) k

theorem paced_function : PacedAt ys k b (b - 1) (p.function solve) (p.function solve') := by
  refine .advance_bind hk fun t => .expect_bind (by decide) fun name => ?_
  refine (paced_params hs (by omega)).bind fun params => .kind_bind fun k => ?_
  have hbody : ∀ type : List Node, Paced ys (b - 1) (b - 1)
      (expect .colon >>= fun _ => p.block solve >>= fun body =>
        p.finish .funDec t.span.start (leaf .id name :: params :: type ++ [body]))
      (expect .colon >>= fun _ => p.block solve' >>= fun body =>
        p.finish .funDec t.span.start (leaf .id name :: params :: type ++ [body])) :=
    fun type => .expect_bind (by decide) fun _ =>
      (paced_block hs (by omega)).keep.bind fun _ => .finish
  refine .ite (fun hk => ?_) fun _ => (Paced.pure []).bind hbody k
  refine .advance_bind (hk ▸ by decide) fun _ => ?_
  refine (hs.inner _ (by omega)).bind fun type => (Paced.pure [type]).bind fun type => ?_
  exact (hbody type).mono (Nat.sub_le ..) (Nat.le_refl _)

theorem paced_binary (left : Node) (power : Power) :
    PacedAt ys k b (b - 1) (p.binary solve left power) (p.binary solve' left power) :=
  .advance_bind hk fun _ => (hs.inner _ (by omega)).bind fun _ => .finish

theorem paced_trailing (left : Node) (power : Power) (t : Trailing) :
    PacedAt ys k b (b - 1) (p.trailing solve left power t) (p.trailing solve' left power t) := by
  cases t with
  | binary => exact paced_binary hs hk hb left power
  | exponent => exact paced_binary hs hk hb left .unary
  | comparison =>
    refine (paced_binary hs hk hb left power).bind fun e => .kind_bind fun k => ?_
    exact .ite (fun _ => Paced.unexpectedDetailed _ k) fun _ => Paced.pure e k
  | call =>
    refine .ite (fun _ => ?_) fun _ => Paced.unexpectedDetailed _ k
    refine .advance_bind hk fun _ => ?_
    exact (paced_exprList hs (by decide) (by omega)).keep.bind fun _ => .finish
  | subscript =>
    refine .advance_bind hk fun _ => (hs.inner _ (by omega)).bind fun _ => ?_
    exact .expect_bind (by decide) fun _ => .finish
  | arrayType =>
    refine Paced.bind (Paced.expect (by decide)) (fun _ => ?_) k
    exact .expect_bind (by decide) fun _ => .finish

end

/-- What follows the expression that a statement begins with. -/
theorem paced_simpleStatement (hb : b ≤ N + 1)
    (hexpr : Paced ys b (b - 1) (solve (.expr .default)) (solve' (.expr .default))) :
    Paced ys b (b - 1) (p.simpleStatement solve) (p.simpleStatement solve') := by
  refine hexpr.bind fun e => .kind_bind fun k => .ite (fun hk => ?_) fun _ => ?_
  · refine .ite (fun _ => ?_) fun _ => Paced.throw (by simp) k
    refine .advance_bind (hk ▸ by decide) fun _ => ?_
    refine ((hs.inner _ (by omega)).mono (Nat.le_refl _) (Nat.sub_le ..)).bind fun _ => ?_
    exact .expect_bind (by decide) fun _ => .finish
  · refine .ite (fun _ => ?_) fun _ => Paced.throw (by simp) k
    exact Paced.expect_bind (by decide) (fun _ => .finish) k

/-- Each round of the loop over operators takes a token. No family continues at the end of the text.
-/
theorem paced_extend {ops : Operators} (hops : ops.trailing .endOfText = none) (power : Power)
    (n n' : Nat) (left : Node) (hb : b ≤ n) (hb' : b ≤ n') (hN : b ≤ N) :
    Paced ys b b (p.extend solve ops power n left) (p.extend solve' ops power n' left) := by
  refine paced_repeated (p.extend solve ops power) (p.extend solve' ops power) id
    (fun n n' left b hN ih => ?_) n n' left hb hb' hN
  refine .kind_bind fun k => .ite (fun _ => ?_) fun _ => Paced.pure left k
  cases ht : ops.trailing k with
  | none => exact Paced.unexpected k
  | some t =>
    have hk : k ≠ .endOfText := by
      rintro rfl
      cases hops.symm.trans ht
    refine (paced_trailing hs hk (Nat.le_succ_of_le hN) left _ t).bind fun node => ?_
    exact (ih node (Nat.le_refl b)).mono (Nat.le_refl b) (Nat.le_succ b)

/-! ## Goals -/

/-- The constructs that the family begins with take a token, and the end of the text continues
nothing. -/
structure Family (p : Parser) (ys : List Token) (N : Nat) (solve solve' : Goal → ParseM Node)
    (ops : Operators) : Prop where
  leading : ∀ ⦃k l⦄, ops.leading k = some l →
    PacedAt ys k (N + 1) N (p.leading solve l) (p.leading solve' l)
  trailing : ops.trailing .endOfText = none

theorem family_expressions : Family p ys N solve solve' .expressions := by
  refine ⟨fun k l hl => ?_, rfl⟩
  have hk : k ≠ .endOfText := by
    rintro rfl
    cases hl
  rcases Operators.leading_expressions hl with ⟨rfl, -⟩ | ⟨rfl, -⟩ | ⟨rfl, -⟩ | ⟨rfl, -⟩
  · exact paced_primary k
  · exact paced_unary hs hk (Nat.le_refl _)
  · exact paced_grouping hs hk (Nat.le_refl _)
  · exact paced_array hs hk (Nat.le_refl _)

omit hs in
theorem family_types : Family p ys N solve solve' .types := by
  refine ⟨fun k l hl => ?_, rfl⟩
  cases k <;> cases hl
  exact paced_namedType _

/-- One level deeper, one token fewer. -/
theorem paced_operand {ops : Operators} (hops : Family p ys N solve solve' ops) (power : Power) :
    Paced ys (N + 1) N (p.operand solve ops power) (p.operand solve' ops power) := by
  refine .kind_bind fun k => ?_
  cases hl : ops.leading k with
  | none => exact Paced.unexpected k
  | some l =>
    refine (hops.leading hl).bind fun left => ?_
    refine .remaining_bind (p.extend solve ops power · left) (p.extend solve' ops power · left)
      fun n n' b hn hn' hb => ?_
    exact (paced_extend hs hops.trailing power n n' left hn hn' hb).mono (Nat.le_refl b) hb

/-- A statement that starts with an expression takes no token before it, which is why the goal of
the expression is asked for at the same length. -/
theorem paced_statement (hp : p.grammar = .standard)
    (hexpr : Paced ys (N + 1) N (solve (.expr .default)) (solve' (.expr .default))) :
    Paced ys (N + 1) N (p.statement solve) (p.statement solve') := by
  refine .kind_bind fun k => ?_
  rw [hp]
  cases hl : Grammar.standard.statement k with
  | none => exact paced_simpleStatement hs (Nat.le_refl _) hexpr k
  | some l =>
    cases k <;> cases hl
    · exact paced_declaration hs (by decide) (Nat.le_refl _)
    · exact paced_function hs (by decide) (Nat.le_refl _)
    · exact paced_result hs (by decide) (Nat.le_refl _)
    · exact paced_loop hs (by decide) (Nat.le_refl _)
    · exact paced_print hs (by decide) (Nat.le_refl _)

variable (hp : p.grammar = .standard)
include hp

/-- One level of the parser. Each goal that is set below it has a token less, but for the expression
that a statement starts with. -/
theorem paced_step (goal : Goal)
    (hexpr : goal = .stmt → Paced ys (N + 1) N (solve (.expr .default)) (solve' (.expr .default))) :
    Paced ys (N + 1) N (p.step solve goal) (p.step solve' goal) := by
  cases goal with
  | expr power =>
    rw [step, step, hp]
    exact paced_operand hs (family_expressions hs) power
  | type power =>
    rw [step, step, hp]
    exact paced_operand hs family_types power
  | stmt => exact paced_statement hs hp (hexpr rfl)

omit hs in
variable (ys) in
/-- Goals take a token at least and are not nested deeper than the tokens allow, so that deeper
bounds make no difference. -/
theorem advances_run (n n' : Nat) (goal : Goal) {c : Cursor} (hc : c.Ended)
    (hn : goal.depthAt c ≤ n) (hn' : goal.depthAt c ≤ n') :
    Advances c (c.remaining - 1) (p.run n goal c) ∧
      p.run n' goal (c.followedBy ys) = ParseM.followedBy ys (p.run n goal c) := by
  induction n generalizing n' goal c with
  | zero => exact absurd (goal.lt_depthAt c) (by omega)
  | succ n ih =>
    have hlt := goal.lt_depthAt c
    obtain ⟨n', rfl⟩ : ∃ m, n' = m + 1 := Nat.exists_eq_succ_of_ne_zero (by omega)
    have hs : Solves ys (c.remaining - 1) (p.run n) (p.run n') := by
      refine fun inner b hb => .of_remaining fun d hd hr => ?_
      have hle := inner.depthAt_le d
      have hpos : 0 < d.remaining := Nat.succ_pos _
      exact ih n' inner hd (by omega) (by omega)
    have hpos : c.remaining = c.remaining - 1 + 1 := rfl
    refine paced_step hs hp goal ?_ c.kind hc rfl (Nat.le_of_eq hpos)
    -- the expression is read at the same token, with the depth that is left
    rintro rfl
    refine .of_remaining fun d hd hr => ih n' (.expr .default) hd ?_ ?_
    · simp only [Goal.depthAt] at hn ⊢
      omega
    · simp only [Goal.depthAt] at hn' ⊢
      omega

end Parser

/-! ## Whole sources -/

namespace Parser

variable {p : Parser} {c : Cursor} {goal : Goal} {n : Nat}

theorem depthAt_le_depth (goal : Goal) (c : Cursor) : goal.depthAt c ≤ depth c := by
  have hle := goal.depthAt_le c
  have hpos : 0 < c.remaining := Nat.succ_pos _
  rw [depth]
  omega

variable (hp : p.grammar = .standard)
include hp

/-- Twice as many levels as tokens, and two more, suffice. -/
theorem solves_run (ys : List Token) {N n : Nat} (hn : 2 * N + 2 ≤ n) :
    Solves ys N p.solve (p.run n) := by
  refine fun goal b hb => .of_remaining fun c hc hr => ?_
  have hle := goal.depthAt_le c
  exact advances_run ys hp (depth c) n goal hc (depthAt_le_depth goal c) (by omega)

variable (hc : c.Ended)
include hc

/-- Every goal takes a token or fails, and never for want of depth. -/
theorem advances_solve : Advances c (c.remaining - 1) (p.solve goal c) :=
  (advances_run [] hp _ _ goal hc (depthAt_le_depth goal c) (depthAt_le_depth goal c)).1

/-- The same for a block. -/
theorem advances_block : Advances c (c.remaining - 1) (p.block p.solve c) := by
  have hblock := paced_block (p := p) (solves_run hp [] (Nat.le_refl (2 * c.remaining + 2)))
    (Nat.le_succ _)
  exact (hblock c.kind hc rfl (Nat.le_refl _)).1

/-- A greater depth makes no difference. -/
theorem run_eq_solve (hn : goal.depthAt c ≤ n) : p.run n goal c = p.solve goal c := by
  have h := (advances_run [] hp (depth c) n goal hc (depthAt_le_depth goal c) hn).2
  rwa [c.followedBy_nil, followedBy_nil] at h

/-- Goals are read as if there were no bound to the depth. -/
theorem solve_eq_step : p.solve goal c = p.step p.solve goal c := by
  have hs := solves_run hp [] (Nat.le_refl (2 * c.remaining + 2))
  have hs' : Solves [] (c.remaining - 1) p.solve (p.run (2 * c.remaining + 2)) :=
    fun inner b hb => hs inner (by omega)
  have hexpr : Paced [] (c.remaining - 1 + 1) (c.remaining - 1) (p.solve (.expr .default))
      (p.run (2 * c.remaining + 2) (.expr .default)) :=
    hs _ (Nat.le_refl _)
  have hstep := (paced_step hs' hp goal (fun _ => hexpr) c.kind hc rfl (Nat.le_refl _)).2
  rw [c.followedBy_nil, followedBy_nil] at hstep
  rw [← hstep, ← run_eq_solve hp hc (n := 2 * c.remaining + 2 + 1)]
  · rfl
  · exact Nat.le_succ_of_le (goal.depthAt_le c)

/-- A program is read forward, and tokens behind the end are not read. -/
theorem advances_program (ys : List Token) :
    Advances c c.remaining (p.program c) ∧
      p.program (c.followedBy ys) = ParseM.followedBy ys (p.program c) := by
  have hitem : ∀ ⦃b⦄, b ≤ c.remaining →
      Paced ys b (b - 1) (p.run (depth c) .stmt) (p.run (depth (c.followedBy ys)) .stmt) := by
    refine fun b hb => .of_remaining fun d hd hr => ?_
    have hle := Goal.stmt.depthAt_le d
    have hpos : 0 < d.remaining := Nat.succ_pos _
    refine advances_run ys hp _ _ .stmt hd ?_ ?_
    · rw [depth]
      omega
    · rw [depth, c.remaining_followedBy]
      omega
  have hle : c.remaining ≤ (c.followedBy ys).remaining := by
    rw [c.remaining_followedBy]
    exact Nat.le_add_right ..
  have hstatements := paced_untilEnd hitem c.remaining (c.followedBy ys).remaining (Nat.le_refl _)
    hle (Nat.le_refl _)
  exact hstatements.bind (fun _ => .finish) c.kind hc rfl (Nat.le_refl _)

end Parser

/-- What stands behind a token that ends the text is no part of what is read. -/
theorem Cursor.exists_followedBy (xs zs : List Token) {e : Token} (he : e.kind = .endOfText) :
    ∃ ys, ofTokens (xs ++ e :: zs) = (ofTokens (xs ++ [e])).followedBy ys := by
  cases xs with
  | nil =>
    refine ⟨zs ++ closing (zs.getLast?.getD e), ?_⟩
    simp [ofTokens, followedBy, closing, he]
  | cons x xs =>
    refine ⟨zs ++ closing ((xs ++ e :: zs).getLast?.getD x), ?_⟩
    simp [ofTokens, followedBy, closing, he]

/-- What stands behind the first end of the text makes no difference. -/
theorem parse_of_endOfText (xs zs : List Token) {e : Token} (he : e.kind = .endOfText)
    (source : String) : parse (xs ++ e :: zs) source = parse (xs ++ [e]) source := by
  obtain ⟨ys, hys⟩ := Cursor.exists_followedBy xs zs he
  have hprogram := (Parser.advances_program (p := ⟨.standard, source.toList⟩) rfl
    (Cursor.ended_ofTokens (xs ++ [e])) ys).2
  rw [parse, parse, hys, hprogram]
  cases Parser.program _ (Cursor.ofTokens (xs ++ [e])) <;> rfl

theorem ParseM.eq_of_expectOr_eq_error {k : TokenKind} {d d' : Diagnostic} {c c₁ : Cursor}
    (h : expectOr k d c = .error d' c₁) : c₁ = c := by
  rw [expectOr_apply] at h
  split at h
  · cases h
  · cases h
    rfl

/-- Whatever the tokens are, reading them comes to an end. No bound to the depth or to the number of
steps is ever met, and goals are read as if there were none. From any token on, an expression, a
type, a statement or a block takes a token at least or fails. No token that ends the text is taken,
so that what stands behind the first one makes no difference, and where a token is asked for in vain
the cursor stays. -/
theorem parse_progress (tokens : List Token) (source : String) :
    let p : Parser := ⟨.standard, source.toList⟩
    (∀ d, parse tokens source = .error d → d.cause ≠ .nestingTooDeep) ∧
      (∀ xs e zs, tokens = xs ++ e :: zs → e.kind = .endOfText →
        parse tokens source = parse (xs ++ [e]) source) ∧
      Advances (.ofTokens tokens) (Cursor.ofTokens tokens).remaining
        (p.program (.ofTokens tokens)) ∧
      ∀ c : Cursor, c.tokens <:+ (Cursor.ofTokens tokens).tokens →
        (∀ goal, p.solve goal c = p.step p.solve goal c ∧
          (∀ n, Parser.depth c ≤ n → p.run n goal c = p.solve goal c) ∧
          Advances c (c.remaining - 1) (p.solve goal c)) ∧
        Advances c (c.remaining - 1) (p.block p.solve c) ∧
        ∀ k d d' c₁, expectOr k d c = .error d' c₁ ∨ expect k c = .error d' c₁ → c₁ = c := by
  intro p
  have hended := Cursor.ended_ofTokens tokens
  have hprogram := (Parser.advances_program (p := p) rfl hended []).1
  refine ⟨?_, ?_, hprogram, ?_⟩
  · intro d hd
    obtain ⟨c, hc⟩ := parse_eq_error.1 hd
    rw [hc] at hprogram
    exact hprogram.2
  · rintro xs e zs rfl he
    exact parse_of_endOfText xs zs he source
  · intro c hsuffix
    have hc := Cursor.ended_of_suffix hended hsuffix
    refine ⟨fun goal => ⟨Parser.solve_eq_step rfl hc, fun n hn => ?_, Parser.advances_solve rfl hc⟩,
      Parser.advances_block rfl hc, ?_⟩
    · exact Parser.run_eq_solve rfl hc (Nat.le_trans (Parser.depthAt_le_depth goal c) hn)
    · rintro k d d' c₁ (h | h)
      · exact eq_of_expectOr_eq_error h
      · exact eq_of_expectOr_eq_error h

/-- The call `f();`, an end of the text, and a word behind it. -/
def brokenOffTokens : List Token :=
  [(.identifier, "f"), (.openParen, "("), (.closeParen, ")"), (.semicolon, ";"),
    (.endOfText, "EOF"), (.letWord, "let")].map fun (kind, value) => ⟨kind, value, .nowhere⟩

theorem parse_progress_brokenOffTokens :
    let p : Parser := ⟨.standard, "".toList⟩
    let c := Cursor.ofTokens brokenOffTokens
    parse brokenOffTokens "" = parse (brokenOffTokens.take 5) "" ∧
      p.run 1000 .stmt c = p.solve .stmt c ∧
      (∃ node c₁, p.solve .stmt c = .ok node c₁ ∧ c.LeadsTo c₁ ∧ c₁.remaining < c.remaining) ∧
      ∃ d, expect .openParen c = .error d c := by
  intro p c
  obtain ⟨-, hend, -, hcursor⟩ := parse_progress brokenOffTokens ""
  obtain ⟨hgoals, -, hexpect⟩ := hcursor c (List.suffix_refl _)
  obtain ⟨-, hdepth, hadvances⟩ := hgoals .stmt
  obtain ⟨node, c₁, hok⟩ : ∃ node c₁, p.solve .stmt c = .ok node c₁ := ⟨_, _, rfl⟩
  obtain ⟨d, c₂, herror⟩ : ∃ d c₂, expect .openParen c = .error d c₂ := ⟨_, _, rfl⟩
  rw [hok] at hadvances
  refine ⟨?_, hdepth 1000 (by decide), ⟨node, c₁, hok, hadvances.1, ?_⟩, d, ?_⟩
  · exact hend (brokenOffTokens.take 4) ⟨.endOfText, "EOF", .nowhere⟩ _ rfl rfl
  · exact Nat.lt_succ_of_le hadvances.2
  · rw [hexpect .openParen d d c₂ (.inr herror)] at herror
    exact herror

end Scriptlet
