import Scriptlet.Proofs.Token.Coherence

/-!
The places of a text that scanning comes to. It moves from one to the next by the first pattern that
matches, so every token begins at such a place, and scanning fails at the first one where no pattern
matches.
-/

namespace Scriptlet

namespace Pattern

/-- Scanning the text comes to a place between what it has taken and the rest. -/
inductive Reaches : List Char → List Char → List Char → Prop where
  | start : Reaches cs [] cs
  | piece : first? cs = some (p, n) → Reaches (cs.drop n) taken rest →
      Reaches cs (cs.take n ++ taken) rest

variable {cs taken rest taken' rest' : List Char}

theorem Reaches.append_eq (h : Reaches cs taken rest) : taken ++ rest = cs := by
  induction h with
  | start => rfl
  | piece _ _ ih => rw [List.append_assoc, ih, List.take_append_drop]

theorem Reaches.byteLength_eq (h : Reaches cs taken rest) :
    Text.byteLength taken + Text.byteLength rest = Text.byteLength cs := by
  rw [← Text.byteLength_append, h.append_eq]

theorem first?_eq_none_iff : first? cs = none ↔ ∀ p ∈ table, p.length? cs = none := by
  simp [first?, List.findSome?_eq_none_iff]

/-- Scanning does not get past a place where no pattern matches. -/
theorem Reaches.first?_ne_none (h : Reaches cs taken rest) (hrest : first? rest = none)
    (h' : Reaches cs taken' rest') (hlt : taken'.length < taken.length) :
    first? rest' ≠ none := by
  -- both walks take the same pieces, until the second one stops
  induction h generalizing taken' with
  | start => cases hlt
  | piece hfirst _ ih =>
    cases h' with
    | start =>
      rw [hfirst]
      exact Option.some_ne_none _
    | piece hfirst' h' =>
      cases hfirst.symm.trans hfirst'
      simp only [List.length_append] at hlt
      exact ih hrest h' (by omega)

/-- The first place inside the text that scanning comes to and at which no pattern matches. -/
structure FirstGap (cs taken rest : List Char) : Prop where
  reached : Reaches cs taken rest
  inside : rest ≠ []
  gap : ∀ p ∈ table, p.length? rest = none
  first : ∀ taken' rest', Reaches cs taken' rest' → taken'.length < taken.length →
    ∃ p ∈ table, p.length? rest' ≠ none

theorem firstGap_of_reaches (h : Reaches cs taken rest) (hne : rest ≠ [])
    (hrest : first? rest = none) : FirstGap cs taken rest := by
  refine ⟨h, hne, first?_eq_none_iff.1 hrest, fun taken' rest' h' hlt => ?_⟩
  obtain ⟨⟨p, n⟩, hfirst⟩ := Option.ne_none_iff_exists'.1 (h.first?_ne_none hrest h' hlt)
  obtain ⟨hp, hn⟩ := first?_eq_some hfirst
  exact ⟨p, hp, by rw [hn]; exact Option.some_ne_none n⟩

end Pattern

namespace Token

open Outcome Pattern

variable {file : String} {offset : Nat} {cs : List Char}

/-- Every token begins at a place that scanning comes to. -/
theorem start_of_scan {tokens : List Token} (h : scan file offset cs = .ok tokens) :
    ∀ t ∈ tokens, ∃ taken rest, Reaches cs taken rest ∧
      t.span.start = ⟨(offset + Text.byteLength taken).toUInt32, file⟩ := by
  fun_induction scan file offset cs generalizing tokens with
  | case1 offset =>
    cases h
    intro t ht
    cases List.mem_singleton.1 ht
    exact ⟨[], [], .start, rfl⟩
  | case2 => cases h
  | case3 offset c cs p n hfirst lexeme =>
    rename_i ih
    obtain ⟨more, hmore, h⟩ := exceptBind_eq_ok.1 h
    cases exceptPure_eq_ok.1 h
    intro t ht
    rcases List.mem_append.1 ht with ht | ht
    · obtain ⟨⟨kind, value⟩, -, rfl⟩ := Option.map_eq_some_iff.1 (Option.mem_toList.1 ht)
      exact ⟨[], c :: cs, .start, rfl⟩
    · obtain ⟨taken, rest, hreach, hstart⟩ := ih hmore t ht
      refine ⟨lexeme ++ taken, rest, .piece hfirst hreach, ?_⟩
      rw [hstart, Text.byteLength_append, Nat.add_assoc]

/-- Where scanning fails no pattern matches, for the first time. -/
theorem firstGap_of_scan {d : Diagnostic} (h : scan file offset cs = .error d) :
    ∃ taken rest, FirstGap cs taken rest ∧
      d.position = ⟨(offset + Text.byteLength taken).toUInt32, file⟩ := by
  suffices hreach : ∃ taken rest, Reaches cs taken rest ∧ rest ≠ [] ∧ first? rest = none ∧
      d.position = ⟨(offset + Text.byteLength taken).toUInt32, file⟩ by
    obtain ⟨taken, rest, hreach, hne, hrest, hposition⟩ := hreach
    exact ⟨taken, rest, firstGap_of_reaches hreach hne hrest, hposition⟩
  fun_induction scan file offset cs with
  | case1 => cases h
  | case2 offset c cs hfirst =>
    cases h
    exact ⟨[], c :: cs, .start, List.cons_ne_nil c cs, hfirst, rfl⟩
  | case3 offset c cs p n hfirst lexeme =>
    rename_i ih
    rcases exceptBind_eq_error.1 h with hrest | ⟨more, -, h⟩
    · obtain ⟨taken, rest, hreach, hne, hgap, hposition⟩ := ih hrest
      refine ⟨lexeme ++ taken, rest, .piece hfirst hreach, hne, hgap, ?_⟩
      rw [hposition, Text.byteLength_append, Nat.add_assoc]
    · cases h

end Token

end Scriptlet
