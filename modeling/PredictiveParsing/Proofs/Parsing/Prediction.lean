import PredictiveParsing.Proofs.Lookahead.Analysis
import PredictiveParsing.Proofs.Lookahead.FirstTokens
import PredictiveParsing.Proofs.Parsing.Registration
import PredictiveParsing.Proofs.Parsing.Spelling

/-!
# Decisions by one token

Where the first token tells whether a part is entered and which branch is taken, the decision tables
tell it, too.
-/

namespace PredictiveParsing

/-- No member of the one has to do with a member of the other. -/
def TokenModel.Unrelated (m : TokenModel) (A B : CategoryId → Prop) : Prop :=
  ∀ x y, A x → B y → m.overlaps x y = false

namespace RuleFacts

def Starts (s : RuleFacts) (p : Phrase) (x : CategoryId) : Prop :=
  x ∈ p.first s.isNullable s.firstOf

/-- One token decides at a place of a rule: a part that may be entered starts with other tokens than
what comes behind it, and the branches of a choice start with different tokens. -/
def Decides (s : RuleFacts) (m : TokenModel) (r : RuleId) (place : Place) : Prop :=
  match place.phrase with
  | .option _ body _ | .repetition _ _ body _ =>
    body.isNullable s.isNullable = false ∧ m.Unrelated (s.Starts body) (s.Behind r place.after)
  | .choice _ _ body _ =>
    (∀ k, (body k).isNullable s.isNullable = false)
      ∧ ∀ j k, j ≠ k → m.Unrelated (s.Starts (body j)) (s.Starts (body k))
  | _ => True

end RuleFacts

/-- One token decides everywhere. -/
def Grammar.IsLL1 (g : Grammar) (m : TokenModel) : Prop :=
  ∀ r p, g.productions[r]? = some p → ∀ place ∈ p.phrase.places [],
    (RuleFacts.ofGrammar g).Decides m r place

namespace TokenModel

theorem Unrelated.not_isA {m : TokenModel} (hm : m.WellFormed) {A B : CategoryId → Prop}
    (h : m.Unrelated A B) {x y t : CategoryId} (hx : A x) (hy : B y) (htx : m.isA t x = true) :
    m.isA t y = false :=
  Bool.eq_false_iff.2 fun hty => by
    have ho := hm.overlaps_of_isA htx hty
    rw [h x y hx hy] at ho
    cases ho

end TokenModel

/-- All that is known of a grammar without defects and ambiguities. -/
structure Grammar.Analyzed (g : Grammar) (m : TokenModel) (a : AnalyzedGrammar) : Prop where
  model : m.WellFormed
  sound : g.Sound
  analyzed : ∃ k, g.analyze m k = .ok a
  unambiguous : a.ambiguities = []
  parts (r : RuleId) (p : Production) : g.productions[r]? = some p → p.phrase.Sound g
  isLL1 : g.IsLL1 m

namespace Grammar.Analyzed

variable {g : Grammar} {m : TokenModel} {a : AnalyzedGrammar} {r : RuleId} {p : Production}
  {place : Place}

/-- The alternatives of a decision whose branches are apart have the paths of one category that
their branches have. -/
theorem exists_paths (hg : g.Analyzed m a) (hp : g.productions[r]? = some p)
    (hplace : place ∈ p.phrase.places []) {kind : DecisionKind} {idx : Nat}
    {branches : List Branch} (hb : place.branches? = some (kind, idx, branches))
    (hapart : Branch.Apart g m branches) :
    ∃ d, (a.rules[r]?.bind (·.decision? kind idx)) = some d
      ∧ d.alternatives.length = branches.length ∧ ∀ (i : Nat) b, branches[i]? = some b →
        ∃ alt, d.alternatives[i]? = some alt ∧ ∀ path, path ∈ alt.paths ↔
          ∃ e, Expands g b.stack path e ∧ if e then path.length < 1 else path.length = 1 := by
  obtain ⟨k, ha⟩ := hg.analyzed
  have hf : ∀ f ∈ (Decision.build g m k kind idx branches).2, f.kind ≠ .pathLimit := by
    intro f hf
    obtain ⟨x, hx, -⟩ := mem_ambiguities ha hp hplace hb hf
    rw [hg.unambiguous] at hx
    cases hx
  exact ⟨_, decision?_of_mem_places ha hp hplace hb, Decision.length_alternatives_build,
    fun i b hi => Decision.exists_mem_paths_iff_of_apart hapart hf hi⟩

end Grammar.Analyzed

/-- An alternative has the paths of one category that a stack has. -/
def Alternative.Recognizes (alt : Alternative) (g : Grammar) (stack : List Phrase) : Prop :=
  ∀ path, path ∈ alt.paths ↔ ∃ x, path = [x] ∧ Expands g stack [x] false

theorem Alternative.recognizes_of_paths {alt : Alternative} {g : Grammar} {stack : List Phrase}
    (hno : ¬Expands g stack [] true)
    (h : ∀ path, path ∈ alt.paths ↔
      ∃ e, Expands g stack path e ∧ if e then path.length < 1 else path.length = 1) :
    alt.Recognizes g stack := by
  intro path
  rw [h]
  constructor
  · rintro ⟨e, hexp, hl⟩
    cases e with
    | false =>
      obtain ⟨x, rfl⟩ := List.length_eq_one_iff.1 hl
      exact ⟨x, rfl, hexp⟩
    | true =>
      obtain rfl : path = [] := List.length_eq_zero_iff.1 (Nat.lt_one_iff.1 hl)
      exact absurd hexp hno
  · rintro ⟨x, rfl, hexp⟩
    exact ⟨false, hexp, rfl⟩

namespace Grammar.Analyzed

variable {g : Grammar} {m : TokenModel} {a : AnalyzedGrammar} {r : RuleId} {after : List Frame}
  {body : Phrase}

theorem sound_of_mem_phrases (ha : ∀ f ∈ after, f.phrase.Sound g) {p : Phrase}
    (hp : p ∈ Frame.phrases after) : p.Sound g := by
  obtain ⟨f, hf, h⟩ := List.mem_filterMap.1 hp
  cases f with
  | rest q =>
    obtain rfl : q = p := Option.some.inj h
    exact ha _ hf
  | again body => cases h

/-- A part that cannot be empty begins all ways through it. -/
theorem starts_of_expands (hg : g.Analyzed m a) (hbody : body.Sound g)
    (ha : ∀ f ∈ after, f.phrase.Sound g)
    (hn : body.isNullable (RuleFacts.ofGrammar g).isNullable = false) :
    ¬Expands g (body :: Frame.phrases after) [] true ∧
      ∀ x, Expands g (body :: Frame.phrases after) [x] false →
        x ≠ CategoryId.eof ∧ (RuleFacts.ofGrammar g).Starts body x := by
  have hs : ∀ p ∈ body :: Frame.phrases after, p.Sound g :=
    List.forall_mem_cons.2 ⟨hbody, fun _ hp => sound_of_mem_phrases ha hp⟩
  have hno : ¬body.isNullable (RuleFacts.ofGrammar g).isNullable = true := by simp [hn]
  constructor
  · intro h
    exact hno (Frame.reachesEnd_rest.1 ((h.starts hg.sound hs).2 rfl rfl)).1
  · intro x h
    obtain ⟨hx, hf⟩ := (h.starts hg.sound hs).1 x [] rfl
    exact ⟨hx, (Frame.mem_first_rest.1 hf).resolve_right fun h => hno h.1⟩

private theorem behind_of_expands (hg : g.Analyzed m a) (ha : ∀ f ∈ after, f.phrase.Sound g)
    {x : CategoryId} (h : Expands g (Frame.phrases after) [x] false) :
    (RuleFacts.ofGrammar g).Behind r after x :=
  .inl (Frame.mem_first_of_phrases
    ((h.starts hg.sound fun _ hp => sound_of_mem_phrases ha hp).1 x [] rfl).2)

theorem eq_of_getElem?_pair {α : Type} {x y b : α} {i : Nat} (h : [x, y][i]? = some b) :
    (i = 0 ∧ x = b) ∨ (i = 1 ∧ y = b) := by
  rcases i with _ | _ | i
  · exact .inl ⟨rfl, Option.some.inj h⟩
  · exact .inr ⟨rfl, Option.some.inj h⟩
  · cases h

private theorem apart_of_part (hg : g.Analyzed m a) (hbody : body.Sound g)
    (ha : ∀ f ∈ after, f.phrase.Sound g)
    (hn : body.isNullable (RuleFacts.ofGrammar g).isNullable = false)
    (hu : m.Unrelated ((RuleFacts.ofGrammar g).Starts body)
      ((RuleFacts.ofGrammar g).Behind r after)) :
    Branch.Apart g m [⟨body :: Frame.phrases after, false⟩, ⟨Frame.phrases after, false⟩] := by
  have hxy : ∀ x y, Expands g (body :: Frame.phrases after) [x] false →
      Expands g (Frame.phrases after) [y] false → m.overlaps x y = false := fun x y hx hy =>
    hu x y ((hg.starts_of_expands hbody ha hn).2 x hx).2 (hg.behind_of_expands ha hy)
  intro i j b b' hij hi hj x y hx hy
  rcases eq_of_getElem?_pair hi with ⟨rfl, rfl⟩ | ⟨rfl, rfl⟩ <;>
    rcases eq_of_getElem?_pair hj with ⟨rfl, rfl⟩ | ⟨rfl, rfl⟩
  · exact absurd rfl hij
  · exact hxy x y hx hy
  · exact (m.overlaps_comm x y).trans (hxy y x hy hx)
  · exact absurd rfl hij

private theorem apart_of_choice (hg : g.Analyzed m a) {n : Nat} {gated : Fin n → Bool}
    {body : Fin n → Phrase} (hbody : ∀ k, (body k).Sound g) (ha : ∀ f ∈ after, f.phrase.Sound g)
    (hn : ∀ k, (body k).isNullable (RuleFacts.ofGrammar g).isNullable = false)
    (hu : ∀ j k, j ≠ k → m.Unrelated ((RuleFacts.ofGrammar g).Starts (body j))
      ((RuleFacts.ofGrammar g).Starts (body k))) :
    Branch.Apart g m (List.ofFn fun k => ⟨body k :: Frame.phrases after, gated k⟩) := by
  intro i j b b' hij hi hj x y hx hy
  simp only [List.getElem?_ofFn, Option.dite_none_right_eq_some, Option.some.injEq] at hi hj
  obtain ⟨hi, rfl⟩ := hi
  obtain ⟨hj, rfl⟩ := hj
  exact hu ⟨i, hi⟩ ⟨j, hj⟩ (fun h => hij (Fin.mk.inj h)) x y
    ((hg.starts_of_expands (hbody _) ha (hn _)).2 x hx).2
    ((hg.starts_of_expands (hbody _) ha (hn _)).2 y hy).2

end Grammar.Analyzed

namespace ParseContext

variable {V : Type} {c : ParseContext V} {g : Grammar} {r : RuleId} {p : Production} {place : Place}

/-- The token at `i` can come next where only the frames are left of a rule. -/
def Fits (c : ParseContext V) (g : Grammar) (r : RuleId) (after : List Frame) (i : Nat) : Prop :=
  (c.tokens.get i).category = CategoryId.eof
    ∨ ∃ x, (RuleFacts.ofGrammar g).Behind r after x ∧ c.isA (c.tokens.get i).category x = true

theorem isAhead_iff {alt : Alternative} {stack : List Phrase} (h : alt.Recognizes g stack)
    (s : ParseState) : c.isAhead s alt = true ↔
      ∃ x, Expands g stack [x] false ∧ c.isA (c.tokens.get s.cursor).category x = true := by
  simp only [isAhead, List.any_eq_true, ahead]
  constructor
  · rintro ⟨path, hp, hm⟩
    obtain ⟨x, rfl, hx⟩ := (h path).1 hp
    exact ⟨x, hx, by simpa using hm⟩
  · rintro ⟨x, hx, hm⟩
    exact ⟨[x], (h [x]).2 ⟨x, rfl, hx⟩, by simpa using hm⟩

/-- What a body that cannot be empty derives begins with a token that begins the body. -/
theorem exists_expands_of_spells (hg : g.Sound) {body : Phrase} (hbody : body.Sound g)
    (hn : body.isNullable (RuleFacts.ofGrammar g).isNullable = false) {e i j : Nat}
    {w : List CategoryId} (hw : body.Derives g e w) (hs : c.Spells i w j) (stack : List Phrase) :
    ∃ x, Expands g (body :: stack) [x] false ∧ c.isA (c.tokens.get i).category x = true := by
  cases w with
  | nil =>
    rw [hw.isNullable hg hbody] at hn
    cases hn
  | cons x w => exact ⟨x, (hw.begins stack).start x w rfl, hs.2.1⟩

variable (hg : g.Analyzed c.registry.model c.analysis)
  (heof : ∀ x, c.isA CategoryId.eof x = true → x = CategoryId.eof)
  (hp : g.productions[r]? = some p) (hplace : place ∈ p.phrase.places [])

include hg hp hplace

theorem sound_of_place : place.phrase.Sound g ∧ ∀ f ∈ place.after, f.phrase.Sound g :=
  (Phrase.Hereditary.sound g).of_mem_places hplace (hg.parts r p hp) (by simp)

include heof

/-- A part is entered where it begins, and only there. -/
theorem exists_decision_of_part {kind : DecisionKind} {idx : Nat} {body : Phrase}
    (hb : place.branches? = some (kind, idx,
      [⟨body :: Frame.phrases place.after, false⟩, ⟨Frame.phrases place.after, false⟩]))
    (hbody : body.Sound g) (hn : body.isNullable (RuleFacts.ofGrammar g).isNullable = false)
    (hu : c.registry.model.Unrelated ((RuleFacts.ofGrammar g).Starts body)
      ((RuleFacts.ofGrammar g).Behind r place.after)) :
    ∃ d, (∀ s, s.currentRule = r → c.decision? s kind idx = some d)
      ∧ (∀ s w j e, body.Derives g e w → c.Spells s.cursor w j → c.enters s d = true)
      ∧ ∀ s, c.Fits g r place.after s.cursor → c.enters s d = false := by
  have ha := (sound_of_place hg hp hplace).2
  obtain ⟨hno, hstart⟩ := hg.starts_of_expands hbody ha hn
  obtain ⟨d, hd, -, halts⟩ := hg.exists_paths hp hplace hb (hg.apart_of_part hbody ha hn hu)
  obtain ⟨alt, halt, hpaths⟩ := halts 0 _ rfl
  have hrec := Alternative.recognizes_of_paths hno hpaths
  have henters : ∀ s, c.enters s d = c.isAhead s alt := fun s => by
    rw [enters, List.head?_eq_getElem?, halt, Option.any_some]
  refine ⟨d, fun s hs => by rw [decision?, hs, hd], fun s w j e hw hs => ?_, fun s hfits => ?_⟩
  · rw [henters, isAhead_iff hrec]
    exact exists_expands_of_spells hg.sound hbody hn hw hs _
  · rw [henters, Bool.eq_false_iff, Ne, isAhead_iff hrec]
    rintro ⟨x, hx, hm⟩
    obtain ⟨hx, hs⟩ := hstart x hx
    rcases hfits with he | ⟨y, hy, hm'⟩
    · exact hx (heof x (he ▸ hm))
    · exact absurd hm' (Bool.eq_false_iff.1 (hu.not_isA hg.model hs hy hm))

omit heof in
/-- The branch is taken that begins where the choice is made. -/
theorem exists_decision_of_choice {n idx : Nat} {gated : Fin n → Bool} {body : Fin n → Phrase}
    {rest : Phrase} (hphrase : place.phrase = .choice idx gated body rest)
    (hd : (RuleFacts.ofGrammar g).Decides c.registry.model r place) :
    ∃ d, (∀ s, s.currentRule = r → c.decision? s .or idx = some d)
      ∧ d.alternatives.length = n
      ∧ ∀ s (gate : Fin n → Option Gate) k w j e, (∀ k, gate k = none) → (body k).Derives g e w →
        c.Spells s.cursor w j → c.select? gate d s = some k := by
  obtain ⟨hphrase', ha⟩ := sound_of_place hg hp hplace
  obtain ⟨phrase, after⟩ := place
  subst hphrase
  obtain ⟨hn, hu⟩ := hd
  have hbody := hphrase'.1.2
  obtain ⟨d, hd, hlength, halts⟩ :=
    hg.exists_paths hp hplace rfl (hg.apart_of_choice hbody ha hn hu)
  have hahead : ∀ (s : ParseState) (k : Fin n), d.alternatives[k.val]?.any (c.isAhead s) = true ↔
      ∃ x, Expands g (body k :: Frame.phrases after) [x] false
        ∧ c.isA (c.tokens.get s.cursor).category x = true := by
    intro s k
    obtain ⟨alt, halt, hpaths⟩ :=
      halts k.val ⟨body k :: Frame.phrases after, gated k⟩ (by simp; rfl)
    have hno := (hg.starts_of_expands (hbody k) ha (hn k)).1
    rw [halt, Option.any_some, isAhead_iff (Alternative.recognizes_of_paths hno hpaths)]
  refine ⟨d, fun s hs => by rw [decision?, hs, hd], by simpa using hlength,
    fun s gate k w j e hgate hw hs => ?_⟩
  have hk := (hahead s k).2 (exists_expands_of_spells hg.sound (hbody k) (hn k) hw hs _)
  have honly : ∀ j, d.alternatives[j.val]?.any (c.isAhead s) = true → j = k := by
    intro j hj
    by_contra hne
    obtain ⟨x, hx, hmx⟩ := (hahead s j).1 hj
    obtain ⟨y, hy, hmy⟩ := (hahead s k).1 hk
    exact absurd hmy (Bool.eq_false_iff.1 ((hu j k hne).not_isA hg.model
      ((hg.starts_of_expands (hbody j) ha (hn j)).2 x hx).2
      ((hg.starts_of_expands (hbody k) ha (hn k)).2 y hy).2 hmx))
  have hselect : c.select? gate d s
      = (List.finRange n).find? fun k => d.alternatives[k.val]?.any (c.isAhead s) := by
    simp [select?, hgate]
  rw [hselect]
  cases hfind : (List.finRange n).find? fun k => d.alternatives[k.val]?.any (c.isAhead s) with
  | none => exact absurd hk (List.find?_eq_none.1 hfind k (List.mem_finRange k))
  | some j =>
    have hj := List.find?_some hfind
    rw [honly j hj]

end ParseContext

end PredictiveParsing
