import Scriptlet.Proofs.SyntaxTree.Pairing
import Scriptlet.Proofs.SyntaxTree.Spans
import Scriptlet.Proofs.Token.Lines

/-!
Sources that are read line by line. A source that is put after another one on a line of its own has
the statements or the fault that it has alone, shifted. Two readings are compared for it. Those of
the second source and of both differ in their places only; those of the first source and of both are
the same, as no statement looks at a token after its own last one.
-/

namespace Scriptlet

open ParseM

/-- What follows depends on what the steps before it give, and on the cursor that they leave. -/
theorem ParseM.bind_apply_congr {α β : Type} {m m' : ParseM α} {f : α → ParseM β} {c c' : Cursor}
    (h : m c = m' c') : (m >>= f) c = (m' >>= f) c' := by
  change EStateM.bind m f c = EStateM.bind m' f c'
  rw [EStateM.bind, EStateM.bind, h]

/-! ## Cuts in a larger text -/

namespace Text

variable {before cs after : List Char} {n start stop : Nat}

/-- A cut behind a text is a cut in the rest. -/
theorem dropBytes?_append_add :
    dropBytes? (byteLength before + n) (before ++ cs) = dropBytes? n cs := by
  induction before with
  | nil => rw [byteLength_nil, Nat.zero_add, List.nil_append]
  | cons c before ih =>
    rw [byteLength_cons, List.cons_append, Nat.add_assoc, dropBytes?_cons_add, ih]

theorem dropBytes?_append_of_le (h : n ≤ byteLength cs) :
    dropBytes? n (cs ++ after) = (dropBytes? n cs).map (· ++ after) := by
  fun_induction dropBytes? n cs with
  | case1 cs => rw [dropBytes?, Option.map_some]
  | case2 n => cases h
  | case3 n c cs hle ih =>
    rw [List.cons_append, dropBytes?, if_pos hle]
    exact ih (by rw [byteLength_cons] at h; omega)
  | case4 n c cs hle => rw [List.cons_append, dropBytes?, if_neg hle, Option.map_none]

theorem takeBytes?_append_of_le (h : n ≤ byteLength cs) :
    takeBytes? n (cs ++ after) = takeBytes? n cs := by
  fun_induction takeBytes? n cs with
  | case1 cs => rw [takeBytes?]
  | case2 n => cases h
  | case3 n c cs hle ih =>
    rw [List.cons_append, takeBytes?, if_pos hle, ih (by rw [byteLength_cons] at h; omega)]
  | case4 n c cs hle => rw [List.cons_append, takeBytes?, if_neg hle]

/-- A piece of a text is the same piece of a larger text, further on. -/
theorem slice?_append_add (hle : start ≤ stop) (hstop : stop ≤ byteLength cs) :
    slice? (byteLength before + start) (byteLength before + stop) (before ++ (cs ++ after)) =
      slice? start stop cs := by
  rw [slice?, slice?, dropBytes?_append_add, Nat.add_sub_add_left,
    dropBytes?_append_of_le (Nat.le_trans hle hstop)]
  cases hdrop : dropBytes? start cs with
  | none => rfl
  | some rest =>
    obtain ⟨taken, rfl, rfl⟩ := exists_append_of_dropBytes? hdrop
    rw [byteLength_append] at hstop
    exact takeBytes?_append_of_le (by omega)

end Text

/-- The texts of a source are those of a larger one, further on. -/
theorem Parser.textBetween_add {p p' : Parser} {before after : List Char} {start stop : Nat}
    (hsource : p'.source = before ++ (p.source ++ after))
    (hstart : start ≤ Text.byteLength p.source) (hstop : stop ≤ Text.byteLength p.source) :
    p'.textBetween (start + Text.byteLength before) (stop + Text.byteLength before) =
      p.textBetween start stop := by
  have hfirst : min start (Text.byteLength p.source) = start := Nat.min_eq_left hstart
  have hlast : min stop (Text.byteLength p.source) = stop := Nat.min_eq_left hstop
  have hsize : Text.byteLength p'.source = Text.byteLength before +
      (Text.byteLength p.source + Text.byteLength after) := by
    rw [hsource, Text.byteLength_append, Text.byteLength_append]
  have hfirst' : min (start + Text.byteLength before) (Text.byteLength p'.source) =
      Text.byteLength before + start := by omega
  have hlast' : max (Text.byteLength before + start)
      (min (stop + Text.byteLength before) (Text.byteLength p'.source)) =
      Text.byteLength before + max start stop := by omega
  simp only [textBetween, hfirst, hlast, hfirst', hlast']
  rw [hsource, Text.slice?_append_add (Nat.le_max_left ..) (Nat.max_le.2 ⟨hstart, hstop⟩)]

/-! ## Shifted trees -/

namespace Node

mutual

/-- The tree `k` bytes on, with the texts that it has. -/
def shift (k : Nat) : Node → Node
  | ⟨rule, text, span, children⟩ => ⟨rule, text, span.shift k, shiftAll k children⟩

def shiftAll (k : Nat) : List Node → List Node
  | [] => []
  | n :: ns => n.shift k :: shiftAll k ns

end

@[simp] theorem rule_shift (k : Nat) (n : Node) : (n.shift k).rule = n.rule := by
  cases n
  rfl

@[simp] theorem text_shift (k : Nat) (n : Node) : (n.shift k).text = n.text := by
  cases n
  rfl

@[simp] theorem start_shift (k : Nat) (n : Node) : (n.shift k).start = n.start.shift k := by
  cases n
  rfl

theorem shiftAll_eq_map (k : Nat) (ns : List Node) : shiftAll k ns = ns.map (shift k) := by
  induction ns with
  | nil => rfl
  | cons n ns ih => rw [shiftAll, ih, List.map_cons]

end Node

theorem Position.shift_zero (a : Position) : a.shift 0 = a := by
  rw [shift, Nat.add_zero, Nat.toUInt32, UInt32.ofNat_toNat]

theorem Span.shift_zero (s : Span) : s.shift 0 = s := by
  rw [shift, Position.shift_zero, Position.shift_zero]

theorem Token.shift_zero (t : Token) : t.shift 0 = t := by
  rw [shift, Span.shift_zero]

namespace Node

mutual

theorem shift_zero : (n : Node) → n.shift 0 = n
  | ⟨rule, text, span, children⟩ => by rw [shift, Span.shift_zero, shiftAll_zero children]

theorem shiftAll_zero : (ns : List Node) → shiftAll 0 ns = ns
  | [] => rfl
  | n :: ns => by rw [shiftAll, shift_zero n, shiftAll_zero ns]

end

end Node

/-! ## A source in a larger one -/

namespace EndsOnce

variable {t : Token} {ts : List Token}

/-- A list of tokens that ends once still does without its first. -/
theorem tail (h : EndsOnce (t :: ts)) (ht : t.kind ≠ .endOfText) : EndsOnce ts := by
  obtain ⟨body, last, heq, hlast, hbody⟩ := h
  cases body with
  | nil =>
    cases heq
    exact (ht hlast).elim
  | cons u us =>
    cases heq
    exact ⟨us, last, rfl, hlast, fun v hv => hbody v (List.mem_cons_of_mem _ hv)⟩

theorem tail_eq_nil (h : EndsOnce (t :: ts)) (ht : t.kind = .endOfText) : ts = [] := by
  obtain ⟨body, last, heq, -, hbody⟩ := h
  cases body with
  | nil => cases heq; rfl
  | cons u us =>
    cases heq
    exact (hbody _ List.mem_cons_self ht).elim

theorem ne_nil (h : EndsOnce ts) : ts ≠ [] := by
  obtain ⟨body, last, rfl, -⟩ := h
  exact List.append_ne_nil_of_right_ne_nil body (List.cons_ne_nil last [])

end EndsOnce

/-- Moving on leaves the tokens after the current one. -/
theorem Cursor.next_spec {c : Cursor} (h : c.upcoming ≠ []) :
    c.next.tokens = c.upcoming ∧ c.next.previousEnd? = some c.current.span.stop := by
  obtain ⟨previous, current, _ | ⟨t, ts⟩⟩ := c
  · exact (h rfl).elim
  · exact ⟨rfl, rfl⟩

/-- The ends of the token lie in a text of the given size. -/
def Token.Inside (size : Nat) (t : Token) : Prop := t.span.lower ≤ size ∧ t.span.upper ≤ size

/-- The source of `p` is a part of the source of `p'`. Its tokens come there in the same order, up
to those that are left over at the end of either. -/
structure Window (p p' : Parser) where
  before : List Char
  after : List Char
  rest : List Token
  rest' : List Token
  source_eq : p'.source = before ++ (p.source ++ after)
  fits : Text.byteLength p.source + Text.byteLength before < UInt32.size
  ended : ∀ t ∈ rest, t.kind = .endOfText
  eq_nil_iff : rest = [] ↔ rest' = []
  length_le : rest.length ≤ rest'.length

namespace Window

variable {p p' : Parser} (w : Window p p') {c c' : Cursor} {us : List Token} {u : Token}

def offset : Nat := Text.byteLength w.before

/-- The cursors have the tokens `us` left, those of the second one shifted, and then the rests. -/
structure Side (us : List Token) (c c' : Cursor) : Prop where
  tokens : c.tokens = us ++ w.rest
  tokens' : c'.tokens = us.map (Token.shift w.offset) ++ w.rest'
  endsOnce : EndsOnce c.tokens
  inside : ∀ t ∈ c.tokens, t.Inside (Text.byteLength p.source)

variable {w}

/-- On each side the next token is the same, but for the shift. -/
theorem Side.cons (h : w.Side (u :: us) c c') : c.current = u ∧ c.upcoming = us ++ w.rest ∧
    c'.current = u.shift w.offset ∧ c'.upcoming = us.map (Token.shift w.offset) ++ w.rest' := by
  obtain ⟨hcurrent, hupcoming⟩ := List.cons.inj h.tokens
  obtain ⟨hcurrent', hupcoming'⟩ := List.cons.inj h.tokens'
  exact ⟨hcurrent, hupcoming, hcurrent', hupcoming'⟩

theorem Side.inside_current (h : w.Side us c c') :
    c.current.Inside (Text.byteLength p.source) := h.inside _ List.mem_cons_self

theorem Side.remaining (h : w.Side us c c') : c.remaining = us.length + w.rest.length := by
  rw [← List.length_append, ← h.tokens]
  rfl

/-- The two readings differ in the tokens behind the window only. -/
theorem Side.remaining_eq (h : w.Side us c c') :
    c'.remaining = c.remaining + (w.rest'.length - w.rest.length) := by
  have hlength := h.remaining
  have hlength' : c'.remaining = us.length + w.rest'.length := by
    rw [← us.length_map (Token.shift w.offset), ← List.length_append, ← h.tokens']
    rfl
  have := w.length_le
  omega

/-- The next token is taken on both sides. -/
theorem Side.next (h : w.Side (u :: us) c c') (hk : c.kind ≠ .endOfText) :
    w.Side us c.next c'.next ∧ c.next.previousEnd? = some u.span.stop ∧
      c'.next.previousEnd? = some (u.span.stop.shift w.offset) ∧
      c.next.remaining < c.remaining := by
  obtain ⟨rfl, hupcoming, hcurrent', hupcoming'⟩ := h.cons
  have hends : EndsOnce c.upcoming := h.endsOnce.tail hk
  have hne' : c'.upcoming ≠ [] := by
    intro hnil
    rw [hupcoming', List.append_eq_nil_iff, List.map_eq_nil_iff, ← w.eq_nil_iff,
      ← List.append_eq_nil_iff, ← hupcoming] at hnil
    exact hends.ne_nil hnil
  obtain ⟨htokens, hend⟩ := Cursor.next_spec hends.ne_nil
  obtain ⟨htokens', hend'⟩ := Cursor.next_spec hne'
  refine ⟨⟨htokens.trans hupcoming, htokens'.trans hupcoming', htokens ▸ hends, ?_⟩, hend, ?_, ?_⟩
  · intro t ht
    exact h.inside t (List.mem_cons_of_mem _ (htokens ▸ ht))
  · rw [hend', hcurrent']
    rfl
  · change c.next.tokens.length < _
    rw [htokens]
    exact Nat.lt_succ_self _

/-- At the end of the text neither cursor moves on. -/
theorem Side.next_of_end (h : w.Side (u :: us) c c') (hk : c.kind = .endOfText) :
    c.next = c ∧ c'.next = c' := by
  obtain ⟨rfl, hupcoming, -, hupcoming'⟩ := h.cons
  have hnil : c.upcoming = [] := h.endsOnce.tail_eq_nil hk
  have hnil' : c'.upcoming = [] := by
    rw [hupcoming', List.append_eq_nil_iff, List.map_eq_nil_iff, ← w.eq_nil_iff,
      ← List.append_eq_nil_iff, ← hupcoming]
    exact hnil
  rw [Cursor.next, hnil, Cursor.next, hnil']
  exact ⟨rfl, rfl⟩

/-- Inside the source no shift overflows. -/
theorem toNat_shift {a : Position} (h : a.offset.toNat ≤ Text.byteLength p.source) :
    (a.shift w.offset).offset.toNat = a.offset.toNat + w.offset :=
  Position.toNat_shift h w.fits

theorem shiftAll_of_forall₂ {k size : Nat} {ns ns' : List Node}
    (h : List.Forall₂ (fun n n' => n.span.lower ≤ size ∧ n' = n.shift k) ns ns') :
    ns' = Node.shiftAll k ns := by
  induction h with
  | nil => rfl
  | cons hn _ ih => rw [hn.2, ih, Node.shiftAll]

/-- The node of the larger source is the one of the smaller, shifted. -/
theorem nodeTo_eq {rule : Rule} {start stop : Position} {ns : List Node}
    (hstart : start.offset.toNat ≤ Text.byteLength p.source)
    (hstop : stop.offset.toNat ≤ Text.byteLength p.source) (hc : c.previousEnd? = some stop)
    (hc' : c'.previousEnd? = some (stop.shift w.offset)) :
    p'.nodeTo rule (start.shift w.offset) (Node.shiftAll w.offset ns) c' =
      (p.nodeTo rule start ns c).shift w.offset := by
  have hprevious : c.previousEnd = stop := by rw [Cursor.previousEnd, hc, Option.getD_some]
  have hprevious' : c'.previousEnd = stop.shift w.offset := by
    rw [Cursor.previousEnd, hc', Option.getD_some]
  rw [Parser.nodeTo, Parser.nodeTo, hprevious, hprevious', toNat_shift hstart, toNat_shift hstop,
    offset, Parser.textBetween_add w.source_eq hstart hstop]
  rfl

variable (w)

/-- Reading the smaller source beside the larger one. -/
def pairing : Pairing p p' where
  place a a' := a.offset.toNat ≤ Text.byteLength p.source ∧ a' = a.shift w.offset
  token t t' := t.Inside (Text.byteLength p.source) ∧ t' = t.shift w.offset
  node n n' := n.span.lower ≤ Text.byteLength p.source ∧ n' = n.shift w.offset
  fault d d' := d' = d.shift w.offset
  here c c' := ∃ u us, w.Side (u :: us) c c'
  past c c' := (∃ us, w.Side us c c') ∧ ∃ stop, stop.offset.toNat ≤ Text.byteLength p.source ∧
    c.previousEnd? = some stop ∧ c'.previousEnd? = some (stop.shift w.offset)
  lost c := c.tokens = w.rest ∧ EndsOnce c.tokens ∧
    ∀ t ∈ c.tokens, t.Inside (Text.byteLength p.source)
  excess := w.rest'.length - w.rest.length
  start_of_token t t' h := by
    obtain ⟨h, rfl⟩ := h
    exact ⟨h.1, rfl⟩
  leaf t t' h rule _ := by
    obtain ⟨h, rfl⟩ := h
    exact ⟨h.1, rfl⟩
  rule_eq n n' h := by rw [h.2, Node.rule_shift]
  start_of_node n n' h := ⟨h.1, by rw [h.2, Node.start_shift]⟩
  misplaced n n' h message := by
    rw [h.2, Node.text_shift, Node.start_shift]
    rfl
  kind_eq c c' h := by
    obtain ⟨u, us, h⟩ := h
    obtain ⟨hcurrent, -, hcurrent', -⟩ := h.cons
    rw [Cursor.kind, Cursor.kind, hcurrent, hcurrent']
    rfl
  current c c' h := by
    obtain ⟨u, us, h⟩ := h
    obtain ⟨rfl, -, hcurrent', -⟩ := h.cons
    exact ⟨h.inside_current, hcurrent'⟩
  remaining_eq c c' h := by
    obtain ⟨u, us, h⟩ := h
    exact h.remaining_eq
  unexpected c c' h := by
    obtain ⟨u, us, h⟩ := h
    obtain ⟨rfl, -, hcurrent', -⟩ := h.cons
    rw [Cursor.unexpected, Cursor.start, hcurrent']
    rfl
  unexpectedDetailed c c' h message := by
    obtain ⟨u, us, h⟩ := h
    obtain ⟨rfl, -, hcurrent', -⟩ := h.cons
    rw [Cursor.unexpectedDetailed, Cursor.start, hcurrent']
    rfl
  next c c' h hk := by
    obtain ⟨u, us, h⟩ := h
    obtain ⟨hside, hend, hend', hlt⟩ := h.next hk
    have hinside := h.inside_current
    rw [h.cons.1] at hinside
    exact ⟨⟨⟨us, hside⟩, u.span.stop, hinside.2, hend, hend'⟩, hlt⟩
  stay c c' h hc hk := by
    obtain ⟨u, us, h⟩ := h
    obtain ⟨hnext, hnext'⟩ := h.next_of_end hk
    rw [hnext, hnext']
    exact hc
  look c c' h := by
    obtain ⟨⟨us, h⟩, -⟩ := h
    cases us with
    | nil => exact .inr ⟨h.tokens, h.endsOnce, h.inside⟩
    | cons u us => exact .inl ⟨u, us, h⟩
  finish c c' h rule _ start start' hstart ns ns' hns := by
    obtain ⟨-, stop, hstop, hc, hc'⟩ := h
    obtain ⟨hstart, rfl⟩ := hstart
    rw [shiftAll_of_forall₂ hns, nodeTo_eq hstart hstop hc hc']
    exact ⟨hstart, rfl⟩
  kind_of_lost c h := by
    obtain ⟨h, -⟩ := h
    exact w.ended _ (h ▸ List.mem_cons_self)
  next_of_lost c h := by
    have hk := w.ended c.current (h.1 ▸ List.mem_cons_self)
    have hnil : c.upcoming = [] := h.2.1.tail_eq_nil hk
    rw [Cursor.next, hnil]
    exact ⟨h, _, h.2.2 _ List.mem_cons_self, rfl⟩
  finish_of_lost c h rule _ start start' hstart ns ns' _ := ⟨_, hstart.1, rfl⟩

variable {w}

/-- The common tokens are used up where the smaller source ends. -/
theorem Side.eq_nil (h : w.Side us c c') (hrest : w.rest ≠ []) (hk : c.kind = .endOfText) :
    us = [] := by
  cases us with
  | nil => rfl
  | cons u us =>
    obtain ⟨rfl, hupcoming, -⟩ := h.cons
    have hnil : us ++ w.rest = [] := hupcoming ▸ h.endsOnce.tail_eq_nil hk
    exact (hrest (List.append_eq_nil_iff.1 hnil).2).elim

theorem Side.kind_of_nil (h : w.Side [] c c') : c.kind = .endOfText := by
  have hcurrent : c.current ∈ c.tokens := List.mem_cons_self
  rw [h.tokens] at hcurrent
  exact w.ended _ hcurrent

variable (hp : p.grammar = .standard) (hp' : p'.grammar = .standard)
include hp hp'

/-- Where the smaller source is read to its end, the larger one is read to the same place, and
reading goes on there. -/
theorem Side.untilEnd_eq (hrest : w.rest ≠ []) {n n' m : Nat} {ns : List Node} {c₁ : Cursor}
    (hside : w.Side us c c') (hn : 2 * c.remaining + 2 ≤ n) (hn' : 2 * c.remaining + 2 ≤ n')
    (h : untilEnd (p.run n .stmt) m c = .ok ns c₁) :
    ns.length ≤ us.length ∧ ∃ c₁', c₁'.tokens = w.rest' ∧ ∀ m',
      untilEnd (p'.run n' .stmt) (m' + ns.length) c' =
        (untilEnd (p'.run n' .stmt) m' >>= fun ms =>
          pure (Node.shiftAll w.offset ns ++ ms)) c₁' := by
  induction m generalizing us c c' ns with
  | zero => cases h
  | succ m ih =>
    rcases Parser.untilEnd_succ_eq_ok.1 h with ⟨hk, rfl, rfl⟩ |
      ⟨hk, node, c₂, hnode, ns, _, hns, rfl, rfl⟩
    · cases hside.eq_nil hrest hk
      refine ⟨Nat.le_refl 0, c', hside.tokens', fun m' => ?_⟩
      exact congrFun (bind_pure (untilEnd (p'.run n' .stmt) m')).symm c'
    · cases us with
      | nil => exact (hk hside.kind_of_nil).elim
      | cons u us =>
        -- a statement that succeeds has not looked at the rest, as it ends with a token of its own
        have hcoupled := w.pairing.coupled_run hp hp' n n' .stmt ⟨u, us, hside⟩ hn hn'
        rw [hnode] at hcoupled
        obtain ⟨_, c₂', hnode', ⟨-, rfl⟩, ⟨⟨vs, hside₂⟩, -⟩, hle⟩ := hcoupled.exists_ok
        obtain ⟨hlength, c₁', hc₁', heq⟩ := ih hside₂ (by omega) (by omega) hns
        have hk' : c'.kind ≠ .endOfText := w.pairing.kind_eq ⟨u, us, hside⟩ ▸ hk
        refine ⟨?_, c₁', hc₁', fun m' => ?_⟩
        · have hremaining := hside.remaining
          have hremaining₂ := hside₂.remaining
          simp only [List.length_cons] at hremaining ⊢
          omega
        · rw [List.length_cons, ← Nat.add_assoc, untilEnd_of_ok hk' hnode', bind_apply_congr (heq m'),
            bind_assoc]
          rfl

end Window

/-! ## Two sources, one after the other -/

/-- The statements of a source with the given tokens, or the fault in its syntax. -/
def statements (tokens : List Token) (source : String) : Except Diagnostic (List Node) :=
  (parse tokens source).map Node.children

theorem statements_eq_ok {tokens : List Token} {source : String} {tree : Node}
    (h : parse tokens source = .ok tree) : statements tokens source = .ok tree.children := by
  rw [statements, h]
  rfl

/-- What a reading gives, wherever it leaves the cursor. -/
def outcome {α : Type} : EStateM.Result Diagnostic Cursor α → Except Diagnostic α
  | .ok a _ => .ok a
  | .error d _ => .error d

theorem outcome_eq_ok {α : Type} {r : EStateM.Result Diagnostic Cursor α} {a : α}
    (h : outcome r = .ok a) : ∃ c, r = .ok a c := by
  cases r with
  | ok b c =>
    cases h
    exact ⟨c, rfl⟩
  | error d c => cases h

/-- A map over the result of a reading. -/
theorem outcome_bind {α β : Type} {m : ParseM α} {f : α → β} {c : Cursor} :
    outcome ((m >>= fun a => pure (f a)) c) = (outcome (m c)).map f := by
  change outcome (EStateM.bind m _ c) = _
  rw [EStateM.bind]
  cases m c <;> rfl

/-- What ends in two corresponding ways is one outcome, shifted. -/
theorem Window.outcome_eq {p p' : Parser} {w : Window p p'}
    {r r' : EStateM.Result Diagnostic Cursor (List Node)} (h : w.pairing.Ends r r') :
    outcome r' = ((outcome r).map (List.map (Node.shift w.offset))).mapError
      (Diagnostic.shift w.offset) := by
  cases h with
  | ok hns =>
    rw [shiftAll_of_forall₂ hns, Node.shiftAll_eq_map]
    rfl
  | @error d _ _ _ hd =>
    change Except.error _ = Except.error (d.shift w.offset)
    exact congrArg Except.error hd

/-- The statements of a source, read with a depth that suffices. -/
theorem statements_eq {tokens : List Token} (h : EndsOnce tokens) (source : String) :
    statements tokens source = outcome (untilEnd
      ((⟨.standard, source.toList⟩ : Parser).run (32 * tokens.length) .stmt) tokens.length
      (.ofTokens tokens)) := by
  have hremaining : (Cursor.ofTokens tokens).remaining = tokens.length :=
    congrArg List.length h.tokens_ofTokens
  rw [← hremaining]
  cases hread : untilEnd ((⟨.standard, source.toList⟩ : Parser).run
      (32 * (Cursor.ofTokens tokens).remaining) .stmt) _ (.ofTokens tokens) with
  | ok ns c =>
    rw [statements, parse_eq_ok.2 ⟨c, Parser.program_eq_ok.2 ⟨ns, hread, rfl⟩⟩]
    rfl
  | error d c =>
    rw [statements, parse_eq_error.2 ⟨c, Parser.program_eq_error.2 hread⟩]
    rfl

section TwoSources

variable {s t : String} {file : Option String} {body tokens more : List Token} {last : Token}

theorem toList_append_newline : (s ++ "\n" ++ t).toList = s.toList ++ '\n' :: t.toList := by simp

/-- The first source in both: its last token gives way to those of the second. -/
def upperWindow (s t : String) {last : Token} {more : List Token} (hlast : last.kind = .endOfText)
    (hmore : more ≠ []) (hsize : Text.byteLength s.toList < UInt32.size) :
    Window ⟨.standard, s.toList⟩ ⟨.standard, (s ++ "\n" ++ t).toList⟩ where
  before := []
  after := '\n' :: t.toList
  rest := [last]
  rest' := more
  source_eq := toList_append_newline
  fits := hsize
  ended := by simpa using hlast
  eq_nil_iff := by simpa using hmore
  length_le := List.length_pos_iff.2 hmore

/-- The second source in both. -/
def lowerWindow (s t : String) (hsize : Text.byteLength t.toList + lineLength s < UInt32.size) :
    Window ⟨.standard, t.toList⟩ ⟨.standard, (s ++ "\n" ++ t).toList⟩ where
  before := s.toList ++ ['\n']
  after := []
  rest := []
  rest' := []
  source_eq := by simp
  fits := by
    rw [Text.byteLength_append]
    exact hsize
  ended := List.forall_mem_nil _
  eq_nil_iff := Iff.rfl
  length_le := Nat.le_refl 0

theorem offset_lowerWindow {hsize : Text.byteLength t.toList + lineLength s < UInt32.size} :
    (lowerWindow s t hsize).offset = lineLength s := Text.byteLength_append ..

theorem inside_of_tokenize (hsize : Text.byteLength s.toList < UInt32.size)
    (hs : tokenize s file = .ok tokens) : ∀ u ∈ tokens, u.Inside (Text.byteLength s.toList) := by
  intro u hu
  obtain ⟨hlower, hupper⟩ := (tiles_of_tokenize hsize hs).within hu
  exact ⟨Nat.le_trans hlower hupper, hupper⟩

/-- Both sources are read as the first one is, up to its end. -/
theorem statements_upper (hsize : Text.byteLength s.toList < UInt32.size)
    (hs : tokenize s file = .ok tokens) (hmore : more ≠ [])
    (hboth : EndsOnce (tokens.dropLast ++ more)) {ns : List Node}
    (h : statements tokens s = .ok ns) :
    ∃ n m c, 32 * more.length ≤ n ∧ more.length ≤ m ∧ c.tokens = more ∧
      statements (tokens.dropLast ++ more) (s ++ "\n" ++ t) =
        outcome ((untilEnd ((⟨.standard, (s ++ "\n" ++ t).toList⟩ : Parser).run n .stmt) m >>=
          fun ms => pure (ns ++ ms)) c) := by
  have hinside := inside_of_tokenize hsize hs
  have hends := (tokenize_coherent hs).1
  obtain ⟨body, last, rfl, hlast, -⟩ := (tokenize_coherent hs).1
  rw [statements_eq hends] at h
  obtain ⟨c, hread⟩ := outcome_eq_ok h
  rw [List.dropLast_concat] at hboth ⊢
  have hside : (upperWindow s t hlast hmore hsize).Side body (.ofTokens (body ++ [last]))
      (.ofTokens (body ++ more)) := by
    refine ⟨hends.tokens_ofTokens, ?_, ?_, ?_⟩
    · rw [Cursor.tokens, hboth.tokens_ofTokens]
      exact congrArg (· ++ more) ((List.map_congr_left fun u _ => u.shift_zero).trans body.map_id).symm
    · rw [Cursor.tokens, hends.tokens_ofTokens]
      exact hends
    · rw [Cursor.tokens, hends.tokens_ofTokens]
      exact hinside
  have hremaining : (Cursor.ofTokens (body ++ [last])).remaining = body.length + 1 :=
    hside.remaining
  have hpos := List.length_pos_iff.2 hmore
  rw [statements_eq hboth]
  rw [List.length_append] at hread ⊢
  obtain ⟨hlength, c', hc', heq⟩ := hside.untilEnd_eq rfl rfl (List.cons_ne_nil _ _)
    (by rw [hremaining, List.length_singleton]; omega)
    (show _ ≤ 32 * (body.length + more.length) by omega) hread
  have hns : Node.shiftAll (upperWindow s t hlast hmore hsize).offset ns = ns :=
    Node.shiftAll_zero ns
  simp only [hns] at heq
  refine ⟨32 * (body.length + more.length), body.length + more.length - ns.length, c', ?_, by omega,
    hc', ?_⟩
  · exact Nat.mul_le_mul_left 32 (Nat.le_add_left ..)
  · rw [← heq, Nat.sub_add_cancel (by omega)]

/-- The second source is read in both as it is read alone. -/
theorem ends_lower (hsize : Text.byteLength t.toList + lineLength s < UInt32.size)
    (ht : tokenize t file = .ok more) {n m : Nat} {c : Cursor} (hn : 32 * more.length ≤ n)
    (hm : more.length ≤ m) (hc : c.tokens = more.map (Token.shift (lineLength s))) :
    (lowerWindow s t hsize).pairing.Ends
      (untilEnd ((⟨.standard, t.toList⟩ : Parser).run (32 * more.length) .stmt) more.length
        (.ofTokens more))
      (untilEnd ((⟨.standard, (s ++ "\n" ++ t).toList⟩ : Parser).run n .stmt) m c) := by
  have hends := (tokenize_coherent ht).1
  have hinside := inside_of_tokenize (by omega) ht
  have hside : (lowerWindow s t hsize).Side more (.ofTokens more) c := by
    refine ⟨?_, ?_, ?_, ?_⟩
    · exact hends.tokens_ofTokens.trans more.append_nil.symm
    · rw [hc, offset_lowerWindow]
      exact (List.append_nil _).symm
    · rw [Cursor.tokens, hends.tokens_ofTokens]
      exact hends
    · rw [Cursor.tokens, hends.tokens_ofTokens]
      exact hinside
  have hremaining : (Cursor.ofTokens more).remaining = more.length := hside.remaining
  obtain ⟨u, us, rfl⟩ := List.exists_cons_of_ne_nil hends.ne_nil
  have hpos : 0 < (u :: us).length := Nat.succ_pos _
  refine Pairing.ends_untilEnd rfl rfl (fun c hc => ?_) ⟨u, us, hside⟩ ?_ ?_ ?_ ?_
  · cases hc.1
  all_goals omega

/-- The statements of both sources after those of the first are read as those of the second. -/
theorem statements_append (hsize : Text.byteLength t.toList + lineLength s < UInt32.size)
    (hs : tokenize s file = .ok tokens) (ht : tokenize t file = .ok more) {ns : List Node}
    (h : statements tokens s = .ok ns) :
    statements (tokens.dropLast ++ more.map (Token.shift (lineLength s))) (s ++ "\n" ++ t) =
      ((statements more t).map (ns ++ ·.map (Node.shift (lineLength s)))).mapError
        (Diagnostic.shift (lineLength s)) := by
  have hsize₁ : Text.byteLength s.toList < UInt32.size := by rw [lineLength] at hsize; omega
  have hends := (tokenize_coherent ht).1
  have hboth : EndsOnce (tokens.dropLast ++ more.map (Token.shift (lineLength s))) := by
    have heq := @tokenize_append_newline_eq s t file
    rw [hs, ht] at heq
    exact (tokenize_coherent heq).1
  have hmore : more.map (Token.shift (lineLength s)) ≠ [] := by simpa using hends.ne_nil
  obtain ⟨n, m, c, hn, hm, hc, heq⟩ := statements_upper (t := t) hsize₁ hs hmore hboth h
  rw [List.length_map] at hn hm
  rw [heq, outcome_bind, Window.outcome_eq (ends_lower hsize ht hn hm hc), offset_lowerWindow,
    ← statements_eq hends]
  cases statements more t <;> rfl

/-- The statements of a source are the children of its tree. -/
theorem exists_of_statements {ns : List Node} (hs : tokenize s file = .ok tokens)
    (h : statements tokens s = .ok ns) :
    ∃ tree, parse tokens s = .ok tree ∧ tree.rule = .program ∧ tree.children = ns := by
  cases hp : parse tokens s with
  | error d =>
    rw [statements, hp] at h
    cases h
  | ok tree =>
    rw [statements, hp] at h
    cases h
    obtain ⟨body, last, -, -, -, htree⟩ := coversAll_of_parse (tokenize_coherent hs).1 hp
    exact ⟨tree, rfl, htree.rule, rfl⟩

/-- A fault in the syntax of a source lies in the source. -/
theorem toNat_position_of_parse (hsize : Text.byteLength s.toList < UInt32.size)
    (hs : tokenize s file = .ok tokens) {d : Diagnostic} (h : parse tokens s = .error d) :
    d.position.offset.toNat ≤ Text.byteLength s.toList := by
  have hends := (tokenize_coherent hs).1
  have hself : List.Forall₂
      (Token.Matches fun a _ => a.offset.toNat ≤ Text.byteLength s.toList) tokens tokens :=
    List.forall₂_same.2 fun u hu => ⟨rfl, (inside_of_tokenize hsize hs u hu).1⟩
  have hagree := agree_parse s s hends hends hself
  rw [h] at hagree
  cases hagree with
  | error hd => exact hd.position

end TwoSources

/-- Shifting the tree adds `k` to both ends of each of its nodes. -/
inductive Node.Shifts (k : Nat) : Node → Prop where
  | intro : (n.span.shift k).lower = n.span.lower + k → (n.span.shift k).upper = n.span.upper + k →
      (∀ c ∈ n.children, Shifts k c) → Shifts k n

/-- A tree inside its source can be shifted as long as the sum of the lengths is small enough. -/
theorem Node.WellSpanned.shifts {source : List Char} {k : Nat} {n : Node} (h : n.WellSpanned source)
    (hsize : Text.byteLength source + k < UInt32.size) : n.Shifts k := by
  induction h with
  | intro hn _ ih =>
    refine .intro ?_ (Position.toNat_shift hn.inside hsize) ih
    exact Position.toNat_shift (Nat.le_trans hn.wellFormed hn.inside) hsize

/-- The tree of a source. -/
def readTree (source : String) (file : Option String) : Except Diagnostic Node :=
  tokenize source file >>= fun tokens => parse tokens source

open Outcome in
/-- Sources are read line by line: where a source has a tree, one that is put after it on a line of
its own adds the statements that it has alone, with the same texts and shifted by what is before
it. If it has a fault alone, so have both, at the shifted place. -/
theorem readTree_append_newline (s t : String) (file : Option String)
    (hsize : Text.byteLength (s ++ "\n" ++ t).toList < UInt32.size) (tree : Node)
    (hs : readTree s file = .ok tree) :
    (∀ more, readTree t file = .ok more → more.Shifts (lineLength s) ∧
      ∃ both, readTree (s ++ "\n" ++ t) file = .ok both ∧ both.rule = .program ∧
        both.children = tree.children ++ more.children.map (Node.shift (lineLength s))) ∧
    ∀ d, readTree t file = .error d →
      readTree (s ++ "\n" ++ t) file = .error (d.shift (lineLength s)) ∧
      (d.shift (lineLength s)).position.offset.toNat =
        d.position.offset.toNat + lineLength s := by
  rw [byteLength_append_newline] at hsize
  have hsize' : Text.byteLength t.toList < UInt32.size := by omega
  obtain ⟨tokens, htokens, hp⟩ := exceptBind_eq_ok.1 hs
  have hns := statements_eq_ok hp
  have hboth := @tokenize_append_newline_eq s t file
  rw [htokens] at hboth
  refine ⟨fun more ht => ?_, fun d ht => ?_⟩
  · obtain ⟨us, hus, hmore⟩ := exceptBind_eq_ok.1 ht
    have hstatements := statements_append hsize htokens hus hns
    rw [statements_eq_ok hmore] at hstatements
    rw [hus] at hboth
    obtain ⟨both, hparse, hrule, hchildren⟩ := exists_of_statements hboth hstatements
    refine ⟨?_, both, exceptBind_eq_ok.2 ⟨_, hboth, hparse⟩, hrule, hchildren⟩
    obtain ⟨body, last, rfl, -, hbody, htree⟩ := coversAll_of_parse (tokenize_coherent hus).1 hmore
    exact (htree.wellSpanned (tiles_of_tokenize hsize' hus) hbody).shifts hsize
  · rcases exceptBind_eq_error.1 ht with hd | ⟨us, hus, hd⟩
    · rw [hd] at hboth
      exact ⟨exceptBind_eq_error.2 (.inl hboth),
        Position.toNat_shift (toNat_position_of_tokenize hsize' hd) hsize⟩
    · have hstatements := statements_append hsize htokens hus hns
      rw [statements, statements, exceptMap_eq_error.2 hd] at hstatements
      rw [hus] at hboth
      exact ⟨exceptBind_eq_error.2 (.inr ⟨_, hboth, exceptMap_eq_error.1 hstatements⟩),
        Position.toNat_shift (toNat_position_of_parse hsize' hus hd) hsize⟩

/-- A function whose last line ends in a comment. -/
def upperSource : String := "fun f(): (x = 1; // é (\n) // )"

/-- The second source has an assignment, or lacks its last token, or has a sign that is none. -/
theorem readTree_append_newline_upperSource :
    (∃ both, readTree (upperSource ++ "\n" ++ " x[0] = (f())[0]; // é") none = .ok both ∧
      both.children.map (fun n => (n.rule, n.text, n.span.lower, n.span.upper)) =
        [(.funDec, "fun f(): (x = 1; // é (\n)", 0, 26),
          (.assignStmt, "x[0] = (f())[0];", 33, 49)]) ∧
    readTree (upperSource ++ "\n" ++ " x = f() // é") none =
      .error ⟨.unexpectedToken "EOF", ⟨46, "shell"⟩⟩ ∧
    readTree (upperSource ++ "\n" ++ " x = f(). // é") none =
      .error ⟨.unrecognisedToken ".", ⟨40, "shell"⟩⟩ := by
  have hs : (readTree upperSource none).toOption.any (fun tree =>
      tree.children.map (fun n => (n.rule, n.text, n.span.lower, n.span.upper)) =
        [(.funDec, "fun f(): (x = 1; // é (\n)", 0, 26)]) = true := by decide +kernel
  have ht : (readTree " x[0] = (f())[0]; // é" none).toOption.any (fun more =>
      (more.children.map (Node.shift (lineLength upperSource))).map
        (fun n => (n.rule, n.text, n.span.lower, n.span.upper)) =
          [(.assignStmt, "x[0] = (f())[0];", 33, 49)]) = true := by decide +kernel
  have hopen : (readTree " x = f() // é" none).map (fun _ => ()) =
      .error ⟨.unexpectedToken "EOF", ⟨14, "shell"⟩⟩ := by decide +kernel
  have hsign : (readTree " x = f(). // é" none).map (fun _ => ()) =
      .error ⟨.unrecognisedToken ".", ⟨8, "shell"⟩⟩ := by decide +kernel
  obtain ⟨tree, htree, hfirst⟩ := Outcome.exists_ok_of_any hs
  obtain ⟨more, hmore, hsecond⟩ := Outcome.exists_ok_of_any ht
  refine ⟨?_, ?_, ?_⟩
  · obtain ⟨-, both, hboth, -, hchildren⟩ :=
      (readTree_append_newline _ _ none (by decide +kernel) tree htree).1 more hmore
    refine ⟨both, hboth, ?_⟩
    rw [hchildren, List.map_append, hfirst, hsecond]
    rfl
  · exact ((readTree_append_newline _ _ none (by decide +kernel) tree htree).2 _
      (Outcome.exceptMap_eq_error.1 hopen)).1
  · exact ((readTree_append_newline _ _ none (by decide +kernel) tree htree).2 _
      (Outcome.exceptMap_eq_error.1 hsign)).1

end Scriptlet
