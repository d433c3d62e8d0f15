import Scriptlet.Proofs.SyntaxTree.Completeness

/-!
What the shapes of a derivation say about its terminals. Parentheses around an expression leave no
trace, but they come in pairs; the number of all other terminals is known from the shapes. So a
derivation of given shapes can divide a list of terminals in one way only.
-/

namespace Scriptlet

namespace Terminal

/-- Every terminal but a parenthesis. -/
def isSolid (t : Terminal) : Bool := t.kind != .openParen && t.kind != .closeParen

/-- The number of terminals, parentheses not counted. -/
def solid (ts : List Terminal) : Nat := ts.countP isSolid

/-- The number of parentheses that are opened. -/
def opened (ts : List Terminal) : Nat := ts.countP (·.kind == .openParen)

/-- The number of parentheses that are closed. -/
def closed (ts : List Terminal) : Nat := ts.countP (·.kind == .closeParen)

@[simp] theorem solid_append (ts us : List Terminal) : solid (ts ++ us) = solid ts + solid us :=
  List.countP_append

@[simp] theorem opened_append (ts us : List Terminal) : opened (ts ++ us) = opened ts + opened us :=
  List.countP_append

@[simp] theorem closed_append (ts us : List Terminal) : closed (ts ++ us) = closed ts + closed us :=
  List.countP_append

variable {t : Terminal} (ts : List Terminal)

/-- A terminal that is no parenthesis counts for itself. -/
theorem counts_of_isSolid (h : t.isSolid = true) :
    solid (t :: ts) = solid ts + 1 ∧ opened (t :: ts) = opened ts ∧
      closed (t :: ts) = closed ts := by
  have hkind : t.kind ≠ .openParen ∧ t.kind ≠ .closeParen := by simpa [isSolid] using h
  simp [solid, opened, closed, h, hkind]

theorem counts_of_openParen (h : t.kind = .openParen) :
    solid (t :: ts) = solid ts ∧ opened (t :: ts) = opened ts + 1 ∧
      closed (t :: ts) = closed ts := by
  simp [solid, opened, closed, isSolid, h]

theorem counts_of_closeParen (h : t.kind = .closeParen) :
    solid (t :: ts) = solid ts ∧ opened (t :: ts) = opened ts ∧
      closed (t :: ts) = closed ts + 1 := by
  simp [solid, opened, closed, isSolid, h]

theorem isSolid_of_kind {k : TokenKind} (h : t.kind = k)
    (hk : (k != .openParen && k != .closeParen) = true) : t.isSolid = true := by
  rw [isSolid, h, hk]

theorem isSolid_of_isRelational (h : t.kind.isRelational = true) : t.isSolid = true := by
  rw [isSolid]
  generalize t.kind = k at h
  cases k <;> first | rfl | cases h

theorem isSolid_of_atomRule? {rule : Rule} (h : t.kind.atomRule? = some rule) :
    t.isSolid = true := by
  rw [isSolid]
  generalize t.kind = k at h
  cases k <;> first | rfl | cases h

end Terminal

namespace Shape

mutual

/-- The number of leaves, brackets and commas. -/
def weight : Shape → Nat
  | leaf _ _ => 1
  | branch .subscript ss => weights ss + 2
  | branch .arrayLit ss => weights ss + (ss.length - 1) + 2
  | branch .call ss => weights ss + (ss.length - 2)
  | branch _ ss => weights ss

def weights : List Shape → Nat
  | [] => 0
  | s :: ss => s.weight + weights ss

end

end Shape

section

open Terminal

variable {s : ExprSymbol} {ts us rest : List Terminal} {ss args : List Shape} {l r : Shape}
  {o c : Terminal}

/-- What stands before the rest has as many terminals as the shapes tell, commas between them
included, and its parentheses come in pairs. -/
def Counts (ts rest : List Terminal) (ss : List Shape) : Prop :=
  solid ts = solid rest + Shape.weights ss + (ss.length - 1) ∧
    opened ts + closed rest = closed ts + opened rest

/-- An operation counts its sign and both sides. -/
theorem Counts.operation (h : Counts ts (o :: us) [l]) (ho : o.isSolid = true)
    (h' : Counts us rest [r]) : Counts ts rest [.operation l o r] := by
  have hcounts := counts_of_isSolid us ho
  simp only [Counts, Shape.operation, Shape.weight, Shape.weights, List.length_singleton] at h h' ⊢
  omega

theorem Counts.sign (ho : o.isSolid = true) (h : Counts ts rest [r]) :
    Counts (o :: ts) rest [.branch .unary [.leaf .op o.value, r]] := by
  have hcounts := counts_of_isSolid ts ho
  simp only [Counts, Shape.weight, Shape.weights, List.length_singleton] at h ⊢
  omega

theorem Counts.subscript (h : Counts ts (o :: us) [l]) (ho : o.isSolid = true)
    (h' : Counts us (c :: rest) [r]) (hc : c.isSolid = true) :
    Counts ts rest [.branch .subscript [l, r]] := by
  have hopen := counts_of_isSolid us ho
  have hclose := counts_of_isSolid rest hc
  simp only [Counts, Shape.weight, Shape.weights, List.length_singleton] at h h' ⊢
  omega

/-- The brackets of a call are a pair that leaves no leaf. -/
theorem Counts.call (h : Counts ts (o :: us) [l]) (ho : o.kind = .openParen)
    (h' : Counts us (c :: rest) args) (hc : c.kind = .closeParen) :
    Counts ts rest [.branch .call (l :: args)] := by
  have hopen := counts_of_openParen us ho
  have hclose := counts_of_closeParen rest hc
  simp only [Counts, Shape.weight, Shape.weights, List.length_cons, List.length_nil] at h h' ⊢
  omega

/-- Parentheses around an expression are not counted in its shape. -/
theorem Counts.group (ho : o.kind = .openParen) (h : Counts ts (c :: rest) [r])
    (hc : c.kind = .closeParen) : Counts (o :: ts) rest [r] := by
  have hopen := counts_of_openParen ts ho
  have hclose := counts_of_closeParen rest hc
  simp only [Counts] at h ⊢
  omega

theorem Counts.array (ho : o.isSolid = true) (h : Counts ts (c :: rest) ss)
    (hc : c.isSolid = true) :
    Counts (o :: ts) rest [.branch .arrayLit ss] := by
  have hopen := counts_of_isSolid ts ho
  have hclose := counts_of_isSolid rest hc
  simp only [Counts, Shape.weight, Shape.weights, List.length_singleton] at h ⊢
  omega

/-- A comma for each further item. -/
theorem Counts.more (h : Counts ts (c :: us) [l]) (hc : c.isSolid = true) (h' : Counts us rest ss)
    (hss : ss ≠ []) : Counts ts rest (l :: ss) := by
  have hcounts := counts_of_isSolid us hc
  have hlength := List.length_pos_iff.2 hss
  simp only [Counts, Shape.weights, List.length_cons, List.length_nil] at h h' ⊢
  omega

namespace DerivesExpr

theorem exprs_ne_nil (h : DerivesExpr .exprs ts rest ss) : ss ≠ [] := by
  cases h <;> simp

/-- Every derivation takes as many terminals as the shapes tell, and as many parentheses are closed
as opened. -/
theorem counts (h : DerivesExpr s ts rest ss) : Counts ts rest ss := by
  induction h with
  | ofAdditive _ ih | ofMultiplicative _ ih | ofUnary _ ih | ofPower _ ih | ofSuffixed _ ih
  | ofPrimary _ ih | one _ ih | someArguments _ ih => exact ih
  | comparison _ hk _ ih ih' => exact ih.operation (isSolid_of_isRelational hk) ih'
  | sum _ hk _ ih ih' =>
    apply ih.operation _ ih'
    rcases hk with hk | hk <;> exact isSolid_of_kind hk rfl
  | product _ hk _ ih ih' =>
    apply ih.operation _ ih'
    rcases hk with hk | hk | hk <;> exact isSolid_of_kind hk rfl
  | power _ hk _ ih ih' => exact ih.operation (isSolid_of_kind hk rfl) ih'
  | sign hk _ ih =>
    apply ih.sign
    rcases hk with hk | hk <;> exact isSolid_of_kind hk rfl
  | subscript _ hk _ hc ih ih' =>
    exact ih.subscript (isSolid_of_kind hk rfl) ih' (isSolid_of_kind hc rfl)
  | call _ _ hk _ hc ih ih' => exact ih.call hk ih' hc
  | @atom x rule rest hk =>
    have hcounts := counts_of_isSolid rest (isSolid_of_atomRule? hk)
    simp only [Counts, Shape.weight, Shape.weights, List.length_singleton]
    omega
  | group hk _ hc ih => exact ih.group hk hc
  | array hk _ hc ih => exact ih.array (isSolid_of_kind hk rfl) (isSolid_of_kind hc rfl)
  | more _ hc h ih ih' => exact ih.more (isSolid_of_kind hc rfl) ih' h.exprs_ne_nil
  | noArguments => exact ⟨rfl, Nat.add_comm ..⟩

/-- A derivation that has as many terminals as stand before a certain one stops there, if it stops
at any but a parenthesis. -/
theorem split {xs ws vs : List Terminal} {t : Terminal}
    (h : DerivesExpr s (xs ++ t :: ws) (o :: vs) [l]) (ht : t.isSolid = true)
    (ho : o.isSolid = true) (hxs : solid xs = l.weight) : t = o ∧ ws = vs := by
  obtain ⟨ys, hys⟩ := h.suffix
  have hcounts := h.counts.1
  have hlast := counts_of_isSolid vs ho
  rw [← hys, solid_append] at hcounts
  simp only [Shape.weights, List.length_singleton] at hcounts
  rcases List.append_eq_append_iff.1 hys.symm with ⟨zs, rfl, hzs⟩ | ⟨zs, rfl, hzs⟩
  · cases zs with
    | nil => exact List.cons.inj hzs
    | cons z zs =>
      obtain ⟨rfl, -⟩ := List.cons.inj hzs
      have hfirst := counts_of_isSolid zs ht
      rw [solid_append] at hcounts
      omega
  · cases zs with
    | nil =>
      obtain ⟨hto, hrest⟩ := List.cons.inj hzs
      exact ⟨hto.symm, hrest.symm⟩
    | cons z zs =>
      obtain ⟨rfl, -⟩ := List.cons.inj hzs
      have hfirst := counts_of_isSolid zs ho
      rw [solid_append] at hxs
      omega

/-- The last terminal before the rest is where the derivation stops. -/
theorem eq_last {xs : List Terminal} {t : Terminal}
    (h : DerivesExpr s (xs ++ t :: rest) (c :: rest) ss) : t = c := by
  obtain ⟨ys, hys⟩ := h.suffix
  exact (List.cons.inj (List.append_inj' hys rfl).2).1.symm

end DerivesExpr

end

end Scriptlet
