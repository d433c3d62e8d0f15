import Scriptlet.Artifact
import Scriptlet.Proofs.Token.Reach
import Scriptlet.Proofs.Typing.Lockstep

/-!
What becomes of a whole source. The tokens decide it: sources whose tokens differ in their spans
only have the same artifacts, or fail for the same reason at the same token. A fault always lies in
the source that is compiled, at a token of it or where its scanning ends.
-/

namespace Scriptlet

open Outcome

variable {S : Position → Position → Prop} {source source' : String} {file file' : Option String}
  {tokens tokens' : List Token}

/-! ## Sources with matching tokens -/

theorem agree_typed (ht : tokenize source file = .ok tokens)
    (ht' : tokenize source' file' = .ok tokens')
    (h : List.Forall₂ (Token.Matches S) tokens tokens') :
    Agree S Eq (typed source file) (typed source' file') := by
  have hparse := agree_parse source source' (tokenize_coherent ht).1 (tokenize_coherent ht').1 h
  have htree : Agree S
      (fun n n' => Laid Pattern.number.Describes .program n.shape ∧ n.MatchesBelow S n')
      (parse tokens source) (parse tokens' source') :=
    hparse.imp fun _ _ hp _ hn => ⟨laid_of_parse ht hp, hn⟩
  rw [typed, typed, ht, ht']
  exact htree.bind fun _ _ hn => agree_analyze hn.1 hn.2

theorem agree_compile (ht : tokenize source file = .ok tokens)
    (ht' : tokenize source' file' = .ok tokens')
    (h : List.Forall₂ (Token.Matches S) tokens tokens') (stage : Stage) :
    Agree S Eq (compile source file stage) (compile source' file' stage) := by
  cases stage with
  | parsed =>
    have hparse := agree_parse source source' (tokenize_coherent ht).1 (tokenize_coherent ht').1 h
    rw [compile, compile, ht, ht']
    exact hparse.bind fun _ _ _ => .pure rfl
  | analyzed | optimized | js => exact (agree_typed ht ht' h).bind_eq fun _ => .pure rfl

/-- Places of the tokens that have the same index in two lists. -/
def SameIndex (tokens tokens' : List Token) (a a' : Position) : Prop :=
  ∃ i : Nat, tokens[i]?.map (·.span.start) = some a ∧ tokens'[i]?.map (·.span.start) = some a'

theorem matches_of_terminals (h : tokens.map Token.terminal = tokens'.map Token.terminal) :
    List.Forall₂ (Token.Matches (SameIndex tokens tokens')) tokens tokens' := by
  have hlength : tokens.length = tokens'.length := by simpa using congrArg List.length h
  refine List.forall₂_iff_get.2 ⟨hlength, fun i hi hi' => ⟨?_, i, ?_, ?_⟩⟩
  · have hterminal := congrArg (·[i]?) h
    simpa [hi, hi'] using hterminal
  · simp [hi]
  · simp [hi']

/-- The layout of a source does not matter: where the tokens of two sources have the same kinds and
values, both have the same artifact of a stage, or both fail with the same name of the fault, each
at the start of the token of the same index. -/
theorem compile_of_terminals (ht : tokenize source file = .ok tokens)
    (ht' : tokenize source' file' = .ok tokens')
    (h : tokens.map Token.terminal = tokens'.map Token.terminal) (stage : Stage) :
    (∃ text, compile source file stage = .ok text ∧ compile source' file' stage = .ok text) ∨
      ∃ d d', compile source file stage = .error d ∧ compile source' file' stage = .error d' ∧
        d.cause.name = d'.cause.name ∧ ∃ i : Nat,
          tokens[i]?.map (·.span.start) = some d.position ∧
          tokens'[i]?.map (·.span.start) = some d'.position := by
  have hagree := agree_compile ht ht' (matches_of_terminals h) stage
  revert hagree
  generalize compile source file stage = x, compile source' file' stage = x'
  intro hagree
  cases hagree with
  | ok htext =>
    cases htext
    exact .inl ⟨_, rfl, rfl⟩
  | error hd => exact .inr ⟨_, _, rfl, rfl, hd.name, hd.position⟩

def tightSource : String := "print(\"\\t\"+x);"

/-- The same tokens after a comment, with blanks between them and a tab that is not escaped. -/
def spacedSource : String := "// first\nprint ( \"\t\" + x ) ;"

def sharedTerminals : List Terminal :=
  [⟨.printWord, "print"⟩, ⟨.openParen, "("⟩, ⟨.string, "\t"⟩, ⟨.plus, "+"⟩, ⟨.identifier, "x"⟩,
    ⟨.closeParen, ")"⟩, ⟨.semicolon, ";"⟩, ⟨.endOfText, "EOF"⟩]

theorem compile_spacedSource : ∃ tokens tokens', tokenize tightSource none = .ok tokens ∧
    tokenize spacedSource (some "spaced") = .ok tokens' ∧
    tokens.map Token.terminal = sharedTerminals ∧ tokens'.map Token.terminal = sharedTerminals ∧
    ∃ d d', compile tightSource none .js = .error d ∧
      compile spacedSource (some "spaced") .js = .error d' ∧ d.cause = .undeclaredName "x" ∧
      d.cause.name = d'.cause.name ∧ ∃ i : Nat,
        tokens[i]?.map (·.span.start) = some d.position ∧
        tokens'[i]?.map (·.span.start) = some d'.position := by
  have htight : (tokenize tightSource none).toOption.any
      (·.map Token.terminal = sharedTerminals) = true := by decide +kernel
  have hspaced : (tokenize spacedSource (some "spaced")).toOption.any
      (·.map Token.terminal = sharedTerminals) = true := by decide +kernel
  obtain ⟨tokens, ht, hterminals⟩ := exists_ok_of_any htight
  obtain ⟨tokens', ht', hterminals'⟩ := exists_ok_of_any hspaced
  have hfault : compile tightSource none .js = .error ⟨.undeclaredName "x", ⟨11, "shell"⟩⟩ := by
    decide +kernel
  refine ⟨tokens, tokens', ht, ht', hterminals, hterminals', ?_⟩
  rcases compile_of_terminals ht ht' (hterminals.trans hterminals'.symm) .js with
    ⟨text, hok, -⟩ | ⟨d, d', hd, hd', hname, hindex⟩
  · rw [hfault] at hok
    cases hok
  · cases hfault.symm.trans hd
    exact ⟨_, d', hd, hd', rfl, hname, hindex⟩

/-! ## Places of faults -/

section

variable {d : Diagnostic} {stage : Stage}

/-- If there are tokens, a fault lies at one of them. -/
theorem exists_start_eq_of_compile (ht : tokenize source file = .ok tokens)
    (h : compile source file stage = .error d) : ∃ t ∈ tokens, t.span.start = d.position := by
  -- the source beside itself, where places correspond if they are the starts of tokens
  have hagree := agree_compile (S := fun a _ => ∃ t ∈ tokens, t.span.start = a) ht ht
    (List.forall₂_same.2 fun t ht => ⟨rfl, t, ht, rfl⟩) stage
  rw [h] at hagree
  cases hagree with
  | error hd => exact hd.position

/-- If there are none, the fault is the one that ends the scanning. -/
theorem compile_of_tokenize_eq_error {d' : Diagnostic} (ht : tokenize source file = .error d')
    (stage : Stage) : compile source file stage = .error d' := by
  cases stage with
  | parsed =>
    rw [compile, ht]
    rfl
  | analyzed | optimized | js =>
    rw [compile, typed, ht]
    rfl

/-- Offsets inside a source of less than four gigabytes are kept whole. -/
theorem Pattern.Reaches.toNat_offset {cs taken rest : List Char} (h : Reaches cs taken rest)
    (hsize : Text.byteLength cs < UInt32.size) :
    (0 + Text.byteLength taken).toUInt32.toNat = Text.byteLength taken := by
  have hle := h.byteLength_eq
  rw [Nat.zero_add]
  exact UInt32.toNat_ofNat_of_lt' (by omega)

/-- A fault names the source that is compiled and lies in it: at the start of a token, or, if the
source has no tokens, at the first place where no pattern of a token matches. -/
theorem place_of_compile_error (hsize : Text.byteLength source.toList < UInt32.size)
    (h : compile source file stage = .error d) :
    d.position.file = file.getD "shell" ∧
      d.position.offset.toNat ≤ Text.byteLength source.toList ∧
      ((∃ tokens, tokenize source file = .ok tokens ∧ ∃ t ∈ tokens, t.span.start = d.position) ∨
        tokenize source file = .error d ∧ ∃ taken rest, Pattern.FirstGap source.toList taken rest ∧
          source.toList = taken ++ rest ∧ d.position.offset.toNat = Text.byteLength taken ∧
          Text.byteLength taken < Text.byteLength source.toList) := by
  cases ht : tokenize source file with
  | ok tokens =>
    obtain ⟨t, htoken, hstart⟩ := exists_start_eq_of_compile ht h
    obtain ⟨taken, rest, hreach, hplace⟩ := Token.start_of_scan ht t htoken
    have hlength := hreach.byteLength_eq
    rw [← hstart]
    refine ⟨by rw [hplace]; rfl, ?_, .inl ⟨tokens, rfl, t, htoken, rfl⟩⟩
    rw [hplace, hreach.toNat_offset hsize]
    omega
  | error d' =>
    cases h.symm.trans (compile_of_tokenize_eq_error ht stage)
    obtain ⟨taken, rest, hgap, hplace⟩ := Token.firstGap_of_scan ht
    have hlength := hgap.reached.byteLength_eq
    have hrest := Text.length_le_byteLength rest
    have hpos := List.length_pos_iff.2 hgap.inside
    have hoffset : d.position.offset.toNat = Text.byteLength taken := by
      rw [hplace, hgap.reached.toNat_offset hsize]
    refine ⟨by rw [hplace]; rfl, by omega, .inr ⟨rfl, taken, rest, hgap, ?_, hoffset, by omega⟩⟩
    exact hgap.reached.append_eq.symm

end

/-- A character that begins no token, after one that takes two bytes. -/
def straySignSource : String := "print(\"é\") @"

theorem place_straySignSource : ∃ d, compile straySignSource none .js = .error d ∧
    d.position = ⟨12, "shell"⟩ ∧ tokenize straySignSource none = .error d ∧
    ∃ taken rest, Pattern.FirstGap straySignSource.toList taken rest ∧
      straySignSource.toList = taken ++ rest ∧ d.position.offset.toNat = Text.byteLength taken ∧
      Text.byteLength taken < Text.byteLength straySignSource.toList := by
  have h : compile straySignSource none .js = .error ⟨.unrecognisedToken "@", ⟨12, "shell"⟩⟩ := by
    decide +kernel
  have ht : (tokenize straySignSource none).toOption = none := by decide +kernel
  obtain ⟨-, -, ⟨tokens, htokens, -⟩ | hgap⟩ := place_of_compile_error (by decide) h
  · rw [htokens] at ht
    cases ht
  · exact ⟨_, h, rfl, hgap⟩

end Scriptlet
