import PredictiveParsing.Proofs.Lookahead.Analysis
import PredictiveParsing.Proofs.Lookahead.Runs
import PredictiveParsing.Proofs.Lookahead.Table

/-!
# What decision tables cover

A decision never excludes an alternative that a run of its rule can take: one of the alternative's
paths begins what the run consumes from there on, as far as the run gets before it begins a further
round of a repetition. Tables do not go around loops, so nothing holds of what comes after that.
-/

namespace PredictiveParsing

/-- A path of an alternative of a decision, by the rule, the kind of the piece and its index. -/
def AnalyzedGrammar.StoresPath (a : AnalyzedGrammar) (r : RuleId) (kind : DecisionKind)
    (idx i : Nat) (path : CategoryPath) : Prop :=
  ∃ d alt, (a.rules[r]?.bind (·.decision? kind idx)) = some d ∧ d.alternatives[i]? = some alt
    ∧ path ∈ alt.paths

/-- A run that takes an alternative of a decision and goes on to the end of the rule. -/
def Grammar.RunsFrom (g : Grammar) (r : RuleId) (kind : DecisionKind) (idx i : Nat) (t : Trace) :
    Prop :=
  ∃ p place way, g.productions[r]? = some p ∧ place ∈ p.phrase.places []
    ∧ place.phrase.head? = some (.decision kind, idx) ∧ place.ways[i]? = some way
    ∧ Frame.Runs g way t

private theorem Place.exists_branches? {place : Place} {kind : DecisionKind} {idx : Nat}
    (h : place.phrase.head? = some (.decision kind, idx)) :
    ∃ branches, place.branches? = some (kind, idx, branches) := by
  obtain ⟨phrase, after⟩ := place
  cases phrase <;> cases h <;> exact ⟨_, rfl⟩

namespace Grammar

/-- A stored path begins what a run consumes, or goes beyond all that the run consumes before its
first further round. -/
theorem exists_path_of_runsFrom {g : Grammar} {m : TokenModel} {k : Nat} {a : AnalyzedGrammar}
    {r : RuleId} {kind : DecisionKind} {idx i : Nat} {t : Trace} (h : g.analyze m k = .ok a)
    (ht : g.RunsFrom r kind idx i t)
    (hlimit : ∀ x ∈ a.ambiguities, x.key = ⟨g.ruleName r, kind, idx⟩ →
      x.finding.kind ≠ .pathLimit) :
    ∃ path, a.StoresPath r kind idx i path
      ∧ (path <+: t.word ∨ ∃ u v, t = u.map some ++ none :: v ∧ u <+: path) := by
  obtain ⟨p, place, way, hp, hplace, hhead, hway, hrun⟩ := ht
  obtain ⟨branches, hb⟩ := Place.exists_branches? hhead
  obtain ⟨⟨w, hw, hagrees⟩, -⟩ := hrun.exists_expands
  have hname : g.ruleName r = p.name := by simp [ruleName, hp]
  have hfound : ∀ f ∈ (Decision.build g m k kind idx branches).2, f.kind ≠ .pathLimit := by
    intro f hf
    obtain ⟨x, hx, hkey, rfl⟩ := mem_ambiguities h hp hplace hb hf
    exact hlimit x hx (hname ▸ hkey)
  obtain ⟨b, hbranch, hstack⟩ : ∃ b, branches[i]? = some b ∧ b.stack = Frame.phrases way := by
    have hi := congrArg (·[i]?) (Place.stack_of_ways hb)
    simpa [hway] using hi
  obtain ⟨alt, halt, path, hpath, hpw⟩ :=
    Decision.exists_path_of_expands hfound hbranch (hstack ▸ hw)
  exact ⟨path, ⟨_, alt, decision?_of_mem_places h hp hplace hb, halt, hpath⟩,
    hagrees.of_isPrefix hpw⟩

/-! ## A decision inside of a repetition -/

def roundsBranch (k : Fin 2) : Phrase :=
  if k = 0 then .terminal 2 1 .nil else .option 1 (.terminal 3 1 .nil) .nil

def roundsGrammar : Grammar :=
  .ofList [⟨"r", .repetition 1 false (.terminal 1 1 (.choice 1 (fun _ => false) roundsBranch .nil))
    (.terminal 4 1 .nil)⟩]

def roundsModel : TokenModel :=
  ["X", "A", "B", "C"].foldl (fun m name => (m.define name none (.literal name) .normal).2) .empty

def roundsAnalysis : AnalyzedGrammar :=
  (roundsGrammar.analyze roundsModel 4).toOption.getD ⟨0, #[], []⟩

set_option maxRecDepth 4000 in
theorem analyze_roundsGrammar : roundsGrammar.analyze roundsModel 4 = .ok roundsAnalysis := by cbv

set_option maxRecDepth 4000 in
theorem ambiguities_roundsAnalysis : roundsAnalysis.ambiguities = [] := by cbv

set_option maxRecDepth 4000 in
private theorem alternatives_roundsAnalysis :
    (roundsAnalysis.rules[0]?.bind (·.decision? .or 1)).map (·.alternatives)
      = some [⟨[[2]], false⟩, ⟨[[3], [4]], false⟩] := by cbv

/-- The runs that take the second branch. -/
theorem runsFrom_roundsGrammar {t : Trace}
    (h : Frame.Runs roundsGrammar [.rest (roundsBranch 1), .rest .nil,
      .again (.terminal 1 1 (.choice 1 (fun _ => false) roundsBranch .nil)),
      .rest (.terminal 4 1 .nil)] t) : roundsGrammar.RunsFrom 0 .or 1 1 t :=
  ⟨_, _, _, rfl, List.mem_cons_of_mem _ (List.mem_cons_of_mem _ List.mem_cons_self), rfl, rfl, h⟩

/-- A run that takes the `B` and leaves the rounds is covered by a stored path. -/
theorem exists_path_of_runsFrom_roundsGrammar :
    roundsGrammar.analyze roundsModel 4 = .ok roundsAnalysis
      ∧ roundsGrammar.RunsFrom 0 .or 1 1 [some 3, some 4]
      ∧ (∀ x ∈ roundsAnalysis.ambiguities, x.key = ⟨roundsGrammar.ruleName 0, .or, 1⟩ →
        x.finding.kind ≠ .pathLimit)
      ∧ ∃ path, roundsAnalysis.StoresPath 0 .or 1 1 path ∧ (path <+: [3, 4]
        ∨ ∃ u v, [some 3, some 4] = u.map some ++ none :: v ∧ u <+: path) := by
  have hrun : roundsGrammar.RunsFrom 0 .or 1 1 [some 3, some 4] :=
    runsFrom_roundsGrammar (.take (.terminal (.nil (.nil (.nil (.leave (.terminal (.nil
      .done))))))))
  have hlimit : ∀ x ∈ roundsAnalysis.ambiguities, x.key = ⟨roundsGrammar.ruleName 0, .or, 1⟩ →
      x.finding.kind ≠ .pathLimit := by simp [ambiguities_roundsAnalysis]
  exact ⟨analyze_roundsGrammar, hrun, hlimit,
    exists_path_of_runsFrom analyze_roundsGrammar hrun hlimit⟩

/-- A run that begins a further round is not covered beyond that. -/
theorem not_forall_exists_isPrefix_of_runsFrom :
    ¬ ∀ (g : Grammar) (m : TokenModel) (k : Nat) (a : AnalyzedGrammar) (r : RuleId)
      (kind : DecisionKind) (idx i : Nat) (t : Trace), g.analyze m k = .ok a →
      g.RunsFrom r kind idx i t → (∀ x ∈ a.ambiguities, x.key = ⟨g.ruleName r, kind, idx⟩ →
        x.finding.kind ≠ .pathLimit) →
      ∃ path, a.StoresPath r kind idx i path ∧ path <+: t.word := by
  intro hall
  -- the run passes over the `B`, makes a further round and leaves
  have hrun : roundsGrammar.RunsFrom 0 .or 1 1 [none, some 1, some 3, some 4] :=
    runsFrom_roundsGrammar (.skip (.nil (.nil (.again (.terminal (.choose 1 (.take (.terminal (.nil
      (.nil (.nil (.leave (.terminal (.nil .done))))))))))))))
  obtain ⟨path, ⟨d, alt, hd, halt, hpath⟩, hprefix⟩ := hall _ _ _ _ _ _ _ _ _ analyze_roundsGrammar
    hrun (by simp [ambiguities_roundsAnalysis])
  have halts := alternatives_roundsAnalysis
  rw [hd, Option.map_some, Option.some.injEq] at halts
  rw [halts] at halt
  obtain rfl : _ = alt := by simpa using halt
  -- the stored paths are `B` and `C`, and the run consumes `X` first
  obtain rfl | rfl : path = [3] ∨ path = [4] := by simpa using hpath
  · exact absurd hprefix (by decide)
  · exact absurd hprefix (by decide)

end Grammar

end PredictiveParsing
