import Mathlib.Data.List.Nodup
import Scriptlet.Proofs.Script.Numbering

/-!
References in a script. A reference stands for the nearest declaration that can be seen from it, but
a script writes it by the number of declarations before it in the text. Where no name is declared
twice, the two are the same.
-/

namespace Scriptlet

/-- No name is declared twice, by a `let` or as a parameter, wherever in the program. -/
def Program.BindsOnce (p : Program) : Prop := (p.lets ++ p.params.map Variable.name).Nodup

instance (p : Program) : Decidable p.BindsOnce := inferInstanceAs (Decidable (List.Nodup _))

/-- The name of a declaration in a script where no name is declared twice. -/
def Declaration.scriptName : Declaration → String
  | varDec v => v.name ++ "_1"
  | param v => v.name

theorem nameAfter_eq_self_iff {before : List String} {name : String} :
    nameAfter before name = name ↔ name ∉ before := by
  rw [nameAfter, ← List.count_eq_zero]
  by_cases h : before.count name = 0
  · rw [if_pos h]
    exact iff_of_true rfl h
  · rw [if_neg h]
    exact iff_of_false (numbered_ne_self _ _) h

theorem Reference.name_of_declaration? {r : Reference} {d : Declaration}
    (h : r.declaration? = some d) : d.var.name = r.var.name := by
  simpa using List.find?_some h

theorem Reference.mem_visible_of_declaration? {r : Reference} {d : Declaration}
    (h : r.declaration? = some d) : d ∈ r.site.visible :=
  List.mem_of_find?_eq_some h

namespace Program

variable {p : Program}

theorem nameAfter_of_bindsOnce (honce : p.BindsOnce) {r : Reference} (hr : r ∈ p.references)
    {d : Declaration} (hd : r.declaration? = some d) :
    nameAfter r.site.before r.var.name = d.scriptName := by
  obtain ⟨v, hv, hsite, -⟩ := exists_visit_of_mem_references hr
  have hsound := sound_of_mem_visits v hv
  obtain ⟨hbefore, hknown⟩ := declared_of_mem_visits v hv
  rw [hsite] at hsound hbefore hknown
  have hname := Reference.name_of_declaration? hd
  have hvisible := Reference.mem_visible_of_declaration? hd
  obtain ⟨hlets, -, hdisjoint⟩ := List.nodup_append.1 honce
  cases d with
  | varDec w =>
    have hmem : r.var.name ∈ r.site.before := hname ▸ hsound.lets w hvisible
    have hcount : r.site.before.count r.var.name = 1 :=
      List.nodup_iff_count_eq_one.1 (hlets.sublist hbefore.sublist) _ hmem
    rw [nameAfter, hcount, if_neg Nat.one_ne_zero, Declaration.scriptName, String.append_assoc]
    exact congrArg (· ++ "_1") hname.symm
  | param w =>
    obtain ⟨f, hf, hw⟩ := hsound.params w hvisible
    have hparam : w ∈ p.params := List.mem_flatMap.2 ⟨f, hknown.subset hf, hw⟩
    rw [Declaration.scriptName, ← show w.name = r.var.name from hname, nameAfter_eq_self_iff]
    intro hmem
    exact hdisjoint w.name (hbefore.subset hmem) w.name (List.mem_map_of_mem hparam) rfl

/-- Every reference to a parameter is written by the parameter's own name, unless a variable of that
name is declared before it in the text. -/
theorem param_reference_iff {n : Node} (h : analyze n = .ok p) :
    p.script = p.renamed.plain ∧ p.renamed.functions = p.functions ∧
      List.Forall₂ (fun r r' => (∃ d, r.declaration? = some d ∧ d.var = r.var) ∧
          ∀ v, r.declaration? = some (.param v) → (r'.var.name = v.name ↔ v.name ∉ r.site.before))
        p.references p.renamed.references := by
  refine ⟨p.script_eq_plain_renamed, p.functions_renamed, ?_⟩
  have hdeclared : ∀ r ∈ p.references, ∃ d, r.declaration? = some d ∧ d.var = r.var :=
    fun r hr => (wellTyped_of_analyze h).declaration hr
  refine (List.forall₂_and_left _ _).2 ⟨hdeclared, p.references_renamed.imp ?_⟩
  intro r r' hr v hv
  have hname : v.name = r.var.name := Reference.name_of_declaration? hv
  rw [hr, hname]
  exact nameAfter_eq_self_iff

/-- A parameter is compared before and returned after a variable of its name is declared. -/
def hiddenParamSource : String :=
  "let b = 1; fun f(a: num) -> num: (while a < b: (let a = a; b = a;) return a;)"

theorem param_reference_hiddenParamSource : ∃ p : Program, p.ReadFrom hiddenParamSource ∧
    p.renamed.references.map (·.var.name) = ["a", "b_1", "a_1", "b_1", "a_1", "a_1"] ∧
    List.Forall₂ (fun r r' => ∀ v, r.declaration? = some (.param v) →
      (r'.var.name = v.name ↔ v.name ∉ r.site.before)) p.references p.renamed.references := by
  obtain ⟨p, ⟨tokens, tree, ht, hp, ha⟩, hnames⟩ := exists_readFrom hiddenParamSource
    (P := fun p => p.renamed.references.map (·.var.name) =
      ["a", "b_1", "a_1", "b_1", "a_1", "a_1"]) (by decide +kernel)
  have h := (param_reference_iff ha).2.2
  exact ⟨p, ⟨tokens, tree, ht, hp, ha⟩, hnames, h.imp fun _ _ hr => hr.2⟩

/-- The parameter of a function has the name of a variable declared before the function. -/
def capturedParamSource : String :=
  "let a = 1; fun f(a: num) -> num: (return a;) print(f(2));"

/-- The head of the function has the parameter's own name, and the reference to it another. -/
theorem param_renamed_capturedParamSource : ∃ p : Program, p.ReadFrom capturedParamSource ∧
    p.script = "let a_1 = 1;\nfunction f(a) \x7b\n  return a_1;\n\x7d\nconsole.log(f(2));" ∧
    ∃ r ∈ p.references.zip p.renamed.references,
      r.1.declaration? = some (.param ⟨"a", .num⟩) ∧ r.2.var.name = "a_1" := by
  exact exists_readFrom _ (P := fun p => p.script = _ ∧ ∃ r ∈ p.references.zip p.renamed.references,
    r.1.declaration? = some (.param ⟨"a", .num⟩) ∧ r.2.var.name = "a_1") (by decide +kernel)

/-- Where no name is declared twice, the script writes every reference by the name of its
declaration, and no two declarations have the same name. -/
theorem reference_of_bindsOnce {n : Node} (h : analyze n = .ok p) (honce : p.BindsOnce) :
    p.script = p.renamed.plain ∧ p.renamed.functions = p.functions ∧
      p.renamed.lets = p.lets.map (· ++ "_1") ∧ p.renamed.lets.Nodup ∧
      List.Forall₂ (fun r r' => ∃ d, r.declaration? = some d ∧ d.var = r.var ∧
        r'.var.name = d.scriptName) p.references p.renamed.references := by
  have hlets : p.renamed.lets = p.lets.map (· ++ "_1") := by
    rw [lets_renamed]
    exact numberAfter_of_nodup (List.nodup_append.1 honce).1
  refine ⟨p.script_eq_plain_renamed, p.functions_renamed, hlets, ?_, ?_⟩
  · rw [lets_renamed]
    exact nodup_numberAfter _ _
  · have hdeclared : ∀ r ∈ p.references, ∃ d, r.declaration? = some d ∧ d.var = r.var ∧
        nameAfter r.site.before r.var.name = d.scriptName := by
      intro r hr
      obtain ⟨d, hd, hvar⟩ := (wellTyped_of_analyze h).declaration hr
      exact ⟨d, hd, hvar, nameAfter_of_bindsOnce honce hr hd⟩
    refine ((List.forall₂_and_left _ _).2 ⟨hdeclared, p.references_renamed⟩).imp ?_
    rintro r r' ⟨⟨d, hd, hvar, hname⟩, hr⟩
    refine ⟨d, hd, hvar, ?_⟩
    rw [hr]
    exact hname

/-- Blocks inside blocks refer to variables and parameters of all the blocks around. -/
def nestedScopesSource : String :=
  "let n = 1; fun f(a: num, b: num) -> num: (let c = a + b; while c < n: (let d = a; " ++
    "c = c + d;) return c;) let m = f(n, 2); print(m);"

/-- Every reference is written: to a variable by its name and the number one, and to a parameter by
its own name. -/
def nestedScopesScript : String :=
  "let n_1 = 1;\nfunction f(a, b) \x7b\n  let c_1 = a + b;\n  while (c_1 < n_1) \x7b\n" ++
    "    let d_1 = a;\n    c_1 = c_1 + d_1;\n  \x7d\n  return c_1;\n\x7d\n" ++
    "let m_1 = f(n_1, 2);\nconsole.log(m_1);"

theorem reference_nestedScopesSource : ∃ p : Program, p.ReadFrom nestedScopesSource ∧
    p.BindsOnce ∧ p.script = nestedScopesScript ∧ p.renamed.plain = nestedScopesScript ∧
    p.renamed.lets = ["n_1", "c_1", "d_1", "m_1"] ∧
    p.renamed.references.map (·.var.name) =
      ["a", "b", "c_1", "n_1", "a", "c_1", "c_1", "d_1", "c_1", "n_1", "m_1"] ∧
    List.Forall₂ (fun r r' => ∃ d, r.declaration? = some d ∧ d.var = r.var ∧
      r'.var.name = d.scriptName) p.references p.renamed.references := by
  obtain ⟨p, ⟨tokens, tree, ht, hp, ha⟩, honce, hscript, hlets, hnames⟩ :=
    exists_readFrom nestedScopesSource
      (P := fun p => p.BindsOnce ∧ p.script = nestedScopesScript ∧ p.lets = ["n", "c", "d", "m"] ∧
        p.renamed.references.map (·.var.name) =
          ["a", "b", "c_1", "n_1", "a", "c_1", "c_1", "d_1", "c_1", "n_1", "m_1"])
      (by decide +kernel)
  obtain ⟨hplain, -, hrenamed, -, hreferences⟩ := reference_of_bindsOnce ha honce
  rw [hlets] at hrenamed
  exact ⟨p, ⟨tokens, tree, ht, hp, ha⟩, honce, hscript, hplain ▸ hscript, hrenamed, hnames,
    hreferences⟩

end Program

end Scriptlet
