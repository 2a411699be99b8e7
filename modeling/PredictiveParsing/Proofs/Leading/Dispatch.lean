import PredictiveParsing.Proofs.Leading.Buckets
import PredictiveParsing.Proofs.Leading.Patterns
import PredictiveParsing.Proofs.Regex.Laws
import PredictiveParsing.Proofs.Token.Hierarchy

/-!
# Dispatch on leading characters

A match at the start of a text that is not empty begins with a leading character of its pattern, so
the category of the pattern is among those that the dispatch table names for that character.
-/

namespace PredictiveParsing

namespace Leading

open Regex (Piece Reading)

variable [Regex.Dialect]

theorem Reads.finish {p q : Piece} {ps : List Piece} {names : List (List Char)}
    (h : Reads ⟨[], .none, [], p :: ps, [], names⟩ q) : q = Piece.sequence (p :: ps) := by
  obtain ⟨fuel, h⟩ := h
  cases fuel with
  | zero => exact (Except.ok.inj h).symm
  | succ fuel => exact (Except.ok.inj h).symm

/-- Behind the start of a text, the pattern of a legible source begins only with a leading
character. -/
theorem starts_of_read {source : String} {set : LeadingSet} {r : Regex}
    (hlegible : legible source.toList = true) (hset : ofPattern? source.toList = some set)
    (hread : Regex.read (anchored source) = .ok r) :
    ∃ e, r = (Regex.look .textStart).andThen e ∧ ∀ c, e.Starts c → set.contains c = true := by
  rw [ofPattern?] at hset
  split at hset
  · rename_i first hscan
    obtain rfl := Option.some.inj hset
    obtain ⟨p, hrun, hread⟩ := Outcome.bind_eq_ok.mp hread
    rw [Outcome.unless_eq_ok, Outcome.unless_eq_ok] at hread
    obtain rfl := Except.ok.inj hread.2.2
    have h : Reads ⟨'^' :: '(' :: ('?' :: ':' :: source.toList ++ [')']), .none, [], [], [], []⟩
        p := ⟨_, hrun⟩
    obtain ⟨r, hr, h⟩ := h.step
    obtain rfl := Except.ok.inj hr
    obtain ⟨r, hr, h⟩ := h.step
    have hr : Reading.readGroup
        ⟨'(' :: ('?' :: ':' :: source.toList) ++ [')'], .none, [],
          [leaf (Regex.startRegex .none)], [], []⟩
        ('?' :: ':' :: source.toList ++ [')']) = .ok r := hr
    have hhead : skipGroupHead ('?' :: ':' :: source.toList) = some source.toList := rfl
    obtain ⟨names, rfl⟩ := readGroup_agrees hhead hr
    obtain ⟨bs, ps, names', h, hall⟩ := (agreement _).branches hscan hlegible h
    obtain ⟨r, hr, h⟩ := h.step
    rw [List.append_nil] at hr
    obtain rfl := Except.ok.inj hr
    obtain rfl := h.finish
    have hcovers := (hall rfl).2.alternatives (hall rfl).1
    refine ⟨(Piece.alternatives (Piece.sequence ps) bs).regex.andThen .empty, rfl, fun c hc => ?_⟩
    rcases Regex.starts_andThen.mp hc with hc | ⟨_, hc⟩
    · exact hcovers.contains c hc
    · exact hc.elim
  · cases hset

end Leading

/-! ## Matches -/

/-- The matcher of a category with a regular expression is the program of its pattern. -/
theorem matcher_of_regex {m : TokenModel} {k : Category} {source : String} (hm : m.Built)
    (hk : k ∈ m.concrete) (hpattern : k.pattern = .regex source) :
    ∃ program, m.engine.compile (anchored source) = .ok program ∧ k.matcher = .regex program :=
  hm.wellFormed.exists_compile
    (hm.wellFormed.mem_iff_get?.mp (TokenModel.mem_concrete.mp hk).1) hpattern

def wordSource : String := "[^\\s\"]+|\"[^\"]*\""

def wordModel : TokenModel := (TokenModel.empty.define "Word" none (.regex wordSource) .normal).2

private theorem built_wordModel : wordModel.Built := .define _ _ _ _ (.tagged 0)

private theorem exists_find_word : ∃ program i,
    Regex.Engine.standard.compile (anchored wordSource) = .ok program ∧
      program.find "a1 ".toList = some (i, 2) := by
  have hfind : ((Regex.Engine.standard.compile (anchored wordSource)).toOption.bind
      (·.find "a1 ".toList)).map Prod.snd = some 2 := by decide +kernel
  obtain ⟨⟨i, _⟩, hfind, rfl⟩ := Option.map_eq_some_iff.mp hfind
  obtain ⟨program, hcompile, hfind⟩ := Option.bind_eq_some_iff.mp hfind
  exact ⟨program, i, Outcome.toOption_eq_some.mp hcompile, hfind⟩

private theorem concrete_wordModel {program : Regex.Program}
    (h : Regex.Engine.standard.compile (anchored wordSource) = .ok program) :
    wordModel.concrete =
      [⟨1, "Word", none, .regex wordSource, .regex program, .normal, none⟩] := by
  have hname : TokenModel.empty.byName.contains "Word" = false := by cbv
  have hsize : TokenModel.empty.size < TokenModel.capacity := by decide
  have hmatcher := TokenModel.matcher_regex h
  rw [wordModel, TokenModel.define_eq_push hname rfl hsize hmatcher]
  cbv

/-- Sources with one of the constructs that a legible source lacks, each with a text: a named class
or a property in a negated class, two hyphens behind a member, a hyphen behind a bracket, a word
boundary that is not a letter, and a class in a class that begins with a colon. -/
def misreadSources : List (String × List Char) :=
  [("[^[:alpha:]]", ['1']), ("[^\\pL]", ['1']), ("[a--b]", ['a']), ("[^+--a]", [',']),
    ("[]-a]", ['-']), ("\\<a", ['a']), ("x[[:a[b]c](]|y[[:a[b]c])]", ['y', 'c'])]

/-- Whether the pattern of a source matches at the start of a text, with a first character that the
scan has missed. -/
def missesStart (source : String) (text : List Char) : Bool :=
  match Leading.ofPattern? source.toList, Regex.Engine.standard.compile (anchored source), text with
  | some set, .ok program, c :: _ =>
    (program.find text).any (fun (_, n) => 0 < n) && !set.contains c
  | _, _, _ => false

private theorem exists_of_missesStart {source : String} {text : List Char}
    (h : missesStart source text = true) :
    ∃ set program c rest i n, Leading.ofPattern? source.toList = some set ∧
      Regex.Engine.standard.compile (anchored source) = .ok program ∧ text = c :: rest ∧
      program.find text = some (i, n) ∧ 0 < n ∧ set.contains c = false := by
  simp only [missesStart] at h
  split at h
  · rename_i set program c rest hset hcompile
    obtain ⟨hfind, hmissed⟩ := Bool.and_eq_true_iff.mp h
    obtain ⟨⟨i, n⟩, hfind, hpos⟩ := (Option.any_eq_true _ _).mp hfind
    exact ⟨set, program, c, rest, i, n, hset, hcompile, rfl, hfind, by simpa using hpos,
      by simpa using hmissed⟩
  · cases h

private theorem missesStart_of_misread : ∀ p ∈ misreadSources,
    missesStart p.1 p.2 = true ∧ Leading.legible p.1.toList = false := by
  have hall : misreadSources.all
    (fun p => missesStart p.1 p.2 && !Leading.legible p.1.toList) = true := by decide +kernel
  intro p hp
  simpa using List.all_eq_true.mp hall p hp

end PredictiveParsing
