import Mathlib.Data.List.Nodup
import Scriptlet.Proofs.Script.Renamed

/-!
Calls in a script. A function may be called from everywhere after its head, but a script can see it
only from the block where it is declared and from the blocks inside. Main statement: what is called
can be seen unless its declaration is inside a loop or a function that has ended.
-/

namespace Scriptlet

namespace Stmt

/-- The functions inside the loops and functions of a block. -/
def inner (ss : List Stmt) : List Signature := ss.flatMap fun s => functionsAll s.contents

theorem inner_cons (s : Stmt) (ss : List Stmt) :
    inner (s :: ss) = functionsAll s.contents ++ inner ss := List.flatMap_cons

theorem heads_cons (s : Stmt) (ss : List Stmt) :
    heads (s :: ss) = s.function?.toList ++ heads ss := by
  cases h : s.function? <;> simp [heads, h]

/-- The functions of statements are those that they declare and those inside. -/
theorem count_functionsAll (f : Signature) (ss : List Stmt) :
    (functionsAll ss).count f = (heads ss).count f + (inner ss).count f := by
  induction ss with
  | nil => rfl
  | cons s ss ih =>
    rw [functionsAll, functions_eq, heads_cons, inner_cons]
    simp only [List.count_append, ih]
    omega

end Stmt

/-! ## Functions in sight and functions that have ended -/

/-- Of the functions `fs`, those in sight, those that have ended and those inside the statements
`ss` still to come are all different, and what is known at the site is in sight or has ended. -/
structure Site.Divides (fs : List Signature) (π : Site) (ss : List Stmt) : Prop where
  heads : Stmt.heads ss ⊆ π.inSight
  known : ∀ f ∈ π.known, f ∈ π.inSight ∨ f ∈ π.ended
  once : ∀ f, π.inSight.count f + π.ended.count f + (Stmt.inner ss).count f ≤ fs.count f

namespace Site.Divides

variable {fs : List Signature} {π : Site} {s : Stmt} {ss : List Stmt}

theorem head_subset (h : π.Divides fs (s :: ss)) : s.function?.toList ⊆ π.inSight := by
  have hheads := h.heads
  rw [Stmt.heads_cons] at hheads
  exact (List.append_subset.1 hheads).1

theorem once_cons (h : π.Divides fs (s :: ss)) (f : Signature) :
    π.inSight.count f + π.ended.count f + (Stmt.functionsAll s.contents).count f +
      (Stmt.inner ss).count f ≤ fs.count f := by
  have honce := h.once f
  rw [Stmt.inner_cons, List.count_append] at honce
  omega

/-- The block inside a statement brings its own functions into sight. -/
theorem block {π' : Site} (h : π.Divides fs (s :: ss))
    (hsight : π'.inSight = Stmt.heads s.contents ++ π.inSight) (hended : π'.ended = π.ended)
    (hknown : π'.known ⊆ π.known ++ s.function?.toList) : π'.Divides fs s.contents := by
  refine ⟨?_, ?_, ?_⟩
  · rw [hsight]
    exact List.subset_append_left _ _
  · intro f hf
    rw [hsight, hended, List.mem_append]
    rcases List.mem_append.1 (hknown hf) with hf | hf
    · exact (h.known f hf).imp_left .inr
    · exact .inl (.inr (h.head_subset hf))
  · intro f
    have honce := h.once_cons f
    rw [Stmt.count_functionsAll] at honce
    rw [hsight, hended, List.count_append]
    omega

/-- The functions of the block inside a statement come into sight there. -/
theorem enter (h : π.Divides fs (s :: ss)) : (π.enter s).Divides fs s.contents := by
  cases s with
  | loop test body => exact h.block rfl rfl (List.subset_append_left _ _)
  | funDec f body => exact h.block rfl rfl (List.Subset.refl _)
  | _ => exact h.block rfl rfl (List.subset_append_left _ _)

/-- After a statement, the functions inside it have ended. -/
theorem after (h : π.Divides fs (s :: ss)) : (π.after s).Divides fs ss := by
  refine ⟨?_, ?_, ?_⟩
  · have hheads := h.heads
    rw [Stmt.heads_cons] at hheads
    exact (List.append_subset.1 hheads).2
  · intro f hf
    simp only [Site.after, Stmt.functions_eq, List.mem_append] at hf ⊢
    rcases hf with hf | hf | hf
    · exact (h.known f hf).imp_right .inr
    · exact .inl (h.head_subset hf)
    · exact .inr (.inl hf)
  · intro f
    have honce := h.once_cons f
    change π.inSight.count f + (Stmt.functionsAll s.contents ++ π.ended).count f + _ ≤ _
    rw [List.count_append]
    omega

/-- Where no function is declared twice, one that is known is in sight or has ended, not both. -/
theorem mem_inSight_iff (h : π.Divides fs ss) (hfs : fs.Nodup) {f : Signature} (hf : f ∈ π.known) :
    f ∈ π.inSight ↔ f ∉ π.ended := by
  constructor
  · intro hsight hended
    have honce := h.once f
    have hle := List.nodup_iff_count_le_one.1 hfs f
    have hpos := List.count_pos_iff.2 hsight
    have hpos' := List.count_pos_iff.2 hended
    omega
  · exact (h.known f hf).resolve_right

end Site.Divides

theorem Site.inSight_inside (π : Site) (s : Stmt) : (π.inside s).inSight = π.inSight := by
  cases s <;> rfl

theorem Site.ended_inside (π : Site) (s : Stmt) : (π.inside s).ended = π.ended := by
  cases s <;> rfl

namespace Program

variable {p : Program}

theorem divides_start (p : Program) : p.start.Divides p.functions p.statements := by
  have hsight : p.start.inSight = Stmt.heads p.statements := List.append_nil _
  refine ⟨?_, fun f hf => absurd hf List.not_mem_nil, ?_⟩
  · rw [hsight]
    exact List.Subset.refl _
  · intro f
    rw [hsight, functions, Stmt.count_functionsAll]
    exact Nat.le_refl _

theorem mem_inSight_iff_of_mem_visits (hfs : p.functions.Nodup) :
    ∀ v ∈ p.visits, ∀ f ∈ v.site.known, f ∈ v.site.inSight ↔ f ∉ v.site.ended := by
  refine Stmt.forall_visits (I := fun π ss => π.Divides p.functions ss) ?_ (fun h => h.enter)
    (fun h => h.after) p.divides_start
  intro π s ss h e _ f hf
  rw [Site.known_inside] at hf
  rw [Site.inSight_inside, Site.ended_inside]
  exact h.mem_inSight_iff hfs hf

/-- Every call is of a function that is declared once, with its head before the call. The script
sees it from the call unless it is declared inside a loop or a function that has ended before. -/
theorem callee_inSight_iff {n : Node} (h : analyze n = .ok p) :
    p.script = p.renamed.plain ∧ (p.renamed.functions.map Signature.name).Nodup ∧
      List.Forall₂ (fun c c' => c'.name = c.name ∧ ∃ f ∈ c'.site.known, f.name = c'.name ∧
        (f ∈ c'.site.inSight ↔ f ∉ c'.site.ended)) p.calls p.renamed.calls := by
  have htyped := wellTyped_of_analyze h
  refine ⟨p.script_eq_plain_renamed, ?_, ?_⟩
  · rw [functions_renamed]
    exact htyped.functions
  · have hcallee : ∀ c ∈ p.calls, ∃ f ∈ c.site.known, f.name = c.name ∧
        (f ∈ c.site.inSight ↔ f ∉ c.site.ended) := by
      intro c hc
      obtain ⟨f, hf, hname⟩ := htyped.callee hc
      obtain ⟨v, hv, hsite, -⟩ := exists_visit_of_mem_calls hc
      have hsight := mem_inSight_iff_of_mem_visits htyped.functions.of_map v hv f (hsite ▸ hf)
      exact ⟨f, hf, hname, hsite ▸ hsight⟩
    refine ((List.forall₂_and_left _ _).2 ⟨hcallee, p.calls_renamed⟩).imp ?_
    rintro c c' ⟨⟨f, hf, hname, hsight⟩, hc, halike⟩
    rw [halike.known, halike.inSight, halike.ended, hc]
    exact ⟨rfl, f, hf, hname, hsight⟩

/-- Functions are called from inside their own bodies, from a loop and after their blocks. -/
def nestedCallsSource : String :=
  "fun f(): (fun g(): (f(); g();) while true: (g();)) f(); g();"

theorem callee_inSight_nestedCallsSource : ∃ p : Program, p.ReadFrom nestedCallsSource ∧
    p.renamed.calls.map (·.name) = ["f", "g", "g", "f", "g"] ∧
    List.Forall₂ (fun c c' => c'.name = c.name ∧ ∃ f ∈ c'.site.known, f.name = c'.name ∧
      (f ∈ c'.site.inSight ↔ f ∉ c'.site.ended)) p.calls p.renamed.calls := by
  obtain ⟨p, ⟨tokens, tree, ht, hp, ha⟩, hnames⟩ := exists_readFrom nestedCallsSource
    (P := fun p => p.renamed.calls.map (·.name) = ["f", "g", "g", "f", "g"]) (by decide +kernel)
  exact ⟨p, ⟨tokens, tree, ht, hp, ha⟩, hnames, (callee_inSight_iff ha).2.2⟩

/-- A function inside another one is called after that one. -/
def escapedCallSource : String := "fun f(): (fun g(): (print(1);)) g();"

theorem callee_out_of_sight_escapedCallSource : ∃ p : Program, p.ReadFrom escapedCallSource ∧
    p.script = "function f() \x7b\n  function g() \x7b\n    console.log(1);\n  \x7d\n\x7d\ng();" ∧
    ∃ c ∈ p.renamed.calls, c.name = "g" ∧ "g" ∉ c.site.inSight.map Signature.name := by
  exact exists_readFrom _ (P := fun p => p.script = _ ∧ ∃ c ∈ p.renamed.calls, c.name = "g" ∧
    "g" ∉ c.site.inSight.map Signature.name) (by decide +kernel)

end Program

end Scriptlet
