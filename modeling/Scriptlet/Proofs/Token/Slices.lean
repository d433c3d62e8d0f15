import Scriptlet.Proofs.Token.Tiling

/-!
Slices of the tokens of a source. The text from the first to the last of some tokens that stand side
by side is scanned as these tokens, wherever it is cut out.
-/

namespace Scriptlet

namespace Token

open Pattern

variable {file : String} {offset : Nat} {cs taken text rest : List Char} {first last t : Token}
  {xs ys before own after : List Token}

theorem Scans.append (h : Scans file offset taken xs (text ++ rest))
    (h' : Scans file (offset + Text.byteLength taken) text ys rest) :
    Scans file offset (taken ++ text) (xs ++ ys) rest := by
  generalize hrest : text ++ rest = rest' at h
  induction h with
  | start => exact h'
  | @piece lexeme taken _ p offset found hfirst _ ih =>
    subst hrest
    rw [Text.byteLength_append, ← Nat.add_assoc] at h'
    rw [List.append_assoc, List.append_assoc]
    refine .piece ?_ (ih h' rfl)
    rwa [List.append_assoc]

/-- What scanning finds after the tokens of a piece. -/
theorem Scans.scan_rest (h : Scans file offset taken xs rest)
    (hscan : scan file offset (taken ++ rest) = .ok (xs ++ ys)) :
    scan file (offset + Text.byteLength taken) rest = .ok ys := by
  rw [h.scan_eq] at hscan
  cases hrest : scan file (offset + Text.byteLength taken) rest with
  | error d =>
    rw [hrest] at hscan
    cases hscan
  | ok zs =>
    rw [hrest] at hscan
    rw [List.append_cancel_left (Except.ok.inj hscan)]

/-- A token has a piece of the text, and those before it have what stands in front. -/
theorem exists_piece_of_scan (h : scan file offset cs = .ok (xs ++ t :: ys))
    (ht : t.kind ≠ .endOfText) :
    ∃ taken lexeme rest, cs = taken ++ (lexeme ++ rest) ∧
      Scans file offset taken xs (lexeme ++ rest) ∧
      Scans file (offset + Text.byteLength taken) lexeme [t] rest ∧
      t.span = .covering file (offset + Text.byteLength taken) (Text.byteLength lexeme) := by
  induction cs using pieces_induction generalizing offset xs with
  | nil =>
    rw [scan_nil] at h
    have hmem : t ∈ [endOfText ⟨offset.toUInt32, file⟩] := by
      rw [Except.ok.inj h]
      exact List.mem_append_right xs List.mem_cons_self
    cases List.mem_singleton.1 hmem
    exact absurd rfl ht
  | gap c cs hgap =>
    rw [scan_of_gap hgap] at h
    cases h
  | piece p lexeme cs hfirst ih =>
    obtain ⟨more, hmore, hall⟩ := scan_append_eq_ok hfirst h
    -- The piece may make no token, the token or one before it.
    have hlater (zs : List Token) (hxs : xs = (ofLexeme? file offset p lexeme).toList ++ zs)
        (hzs : more = zs ++ t :: ys) :
        ∃ taken piece rest, lexeme ++ cs = taken ++ (piece ++ rest) ∧
          Scans file offset taken xs (piece ++ rest) ∧
          Scans file (offset + Text.byteLength taken) piece [t] rest ∧
          t.span = .covering file (offset + Text.byteLength taken) (Text.byteLength piece) := by
      subst hxs hzs
      obtain ⟨taken, piece, rest, rfl, hbefore, hpiece, hspan⟩ := ih hmore
      rw [Nat.add_assoc, ← Text.byteLength_append] at hpiece hspan
      exact ⟨lexeme ++ taken, piece, rest, by rw [List.append_assoc], .piece hfirst hbefore, hpiece,
        hspan⟩
    cases hmade : ofLexeme? file offset p lexeme with
    | none =>
      rw [hmade] at hall hlater
      exact hlater xs rfl hall.symm
    | some u =>
      rw [hmade] at hall hlater
      cases xs with
      | cons x xs =>
        obtain ⟨rfl, hmore⟩ := List.cons.inj hall
        exact hlater xs rfl hmore.symm
      | nil =>
        obtain ⟨rfl, -⟩ := List.cons.inj hall
        have hpiece : Scans file offset (lexeme ++ [])
            ((ofLexeme? file offset p lexeme).toList ++ []) cs := .piece hfirst .start
        rw [List.append_nil, hmade] at hpiece
        have hspan : t.span = .covering file offset (Text.byteLength lexeme) := by
          obtain ⟨made, -, rfl⟩ := Option.map_eq_some_iff.1 hmade
          rfl
        exact ⟨[], lexeme, cs, rfl, .start, hpiece, hspan⟩

/-- The text from the first to the last of some tokens. -/
theorem exists_text_of_scan (h : scan file offset cs = .ok (before ++ (own ++ after)))
    (hown : ∀ t ∈ own, t.kind ≠ .endOfText) (hfirst : own.head? = some first)
    (hlast : own.getLast? = some last) :
    ∃ taken text rest, cs = taken ++ (text ++ rest) ∧
      Scans file offset taken before (text ++ rest) ∧
      Scans file (offset + Text.byteLength taken) text own rest ∧
      first.span.start = ⟨(offset + Text.byteLength taken).toUInt32, file⟩ ∧
      last.span.stop =
        ⟨(offset + Text.byteLength taken + Text.byteLength text).toUInt32, file⟩ := by
  obtain ⟨more, hmore⟩ := List.head?_eq_some_iff.1 hfirst
  have hfront : scan file offset cs = .ok (before ++ first :: (more ++ after)) := by
    rw [h, hmore, List.cons_append]
  obtain ⟨taken, lexeme, rest, rfl, hbefore, -, hspan⟩ :=
    exists_piece_of_scan hfront (hown first (List.mem_of_mem_head? hfirst))
  have hscan := hbefore.scan_rest h
  obtain ⟨front, hfront⟩ := List.getLast?_eq_some_iff.1 hlast
  rw [hfront, List.append_assoc] at hscan
  obtain ⟨taken', lexeme', rest', hcs, hbefore', hpiece, hspan'⟩ :=
    exists_piece_of_scan hscan (hown last (List.mem_of_getLast? hlast))
  rw [hcs, ← List.append_assoc] at hbefore
  refine ⟨taken, taken' ++ lexeme', rest', by rw [hcs, List.append_assoc], hbefore, ?_, ?_, ?_⟩
  · rw [hfront]
    exact hbefore'.append hpiece
  · rw [hspan]
    rfl
  · rw [hspan', Text.byteLength_append, ← Nat.add_assoc]
    rfl

end Token

end Scriptlet
