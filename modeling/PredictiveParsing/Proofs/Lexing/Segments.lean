import PredictiveParsing.Lexing.Tokenizer
import PredictiveParsing.Proofs.Text.Places

/-!
# The segments of a text

What a scan amounts to, told without its loops: a text is cut from left to right, neighbours that no
category matches are made one where they are reported together, and what comes behind the last token
that may be kept is left out.
-/

namespace PredictiveParsing

def Span.around (run : List Span) : Span :=
  ⟨(run.headD .dummy).start, (run.getLastD .dummy).stop⟩

/-! ## Matches -/

/-- Whatever a matcher is, the length that counts is that of a number of characters. -/
theorem Matcher.exists_of_matchLength? {m : Matcher} {rest : List Char} {n : Nat}
    (h : m.matchLength? rest = some n) : ∃ u v, rest = u ++ v ∧ byteCount u = n := by
  cases m with
  | regex program =>
    obtain ⟨⟨i, j⟩, hfind, rfl⟩ := Option.map_eq_some_iff.mp h
    obtain ⟨front, image, rest, hrest, -, hj⟩ := program.exists_of_find hfind
    exact ⟨front ++ image, rest, hrest, hj⟩
  | literal text =>
    rw [matchLength?] at h
    split at h
    · rename_i hfront
      obtain ⟨v, hv⟩ := List.isPrefixOf_iff_prefix.mp hfront
      exact ⟨text, v, hv.symm, Option.some.inj h⟩
    · cases h
  | custom f =>
    obtain ⟨-, hsplit⟩ := Option.filter_eq_some_iff.mp h
    obtain ⟨⟨u, v⟩, huv⟩ := Option.isSome_iff_exists.mp hsplit
    exact ⟨u, v, splitBytes?_eq_some.mp huv⟩
  | never => cases h

namespace Segment

private theorem better_eq_some {best : Option (Category × Nat)} {c k : Category} {rest : List Char}
    {n : Nat} (h : better best c rest = some (k, n)) :
    best = some (k, n) ∨ k = c ∧ c.matcher.matchLength? rest = some n ∧ 0 < n := by
  rw [better] at h
  split at h
  · exact .inl h
  · rename_i l hl
    split at h
    · rename_i hlt
      obtain ⟨rfl, rfl⟩ := Prod.mk.inj (Option.some.inj h)
      exact .inr ⟨rfl, hl, Nat.zero_lt_of_lt hlt⟩
    · exact .inl h

/-- The longest match is a match of one of the candidates and is not empty. -/
theorem longestMatch?_eq_some {ks : List Category} {rest : List Char} {k : Category} {n : Nat}
    (h : longestMatch? ks rest = some (k, n)) :
    k ∈ ks ∧ k.matcher.matchLength? rest = some n ∧ 0 < n := by
  have hfold : ∀ (ks : List Category) (best : Option (Category × Nat)),
      ks.foldl (fun best c => better best c rest) best = some (k, n) →
        best = some (k, n) ∨ k ∈ ks ∧ k.matcher.matchLength? rest = some n ∧ 0 < n := by
    intro ks
    induction ks with
    | nil => exact fun best h => .inl h
    | cons c ks ih =>
      intro best h
      rcases ih _ h with h | ⟨hk, h⟩
      · rcases better_eq_some h with h | ⟨rfl, h⟩
        · exact .inl h
        · exact .inr ⟨List.mem_cons_self, h⟩
      · exact .inr ⟨List.mem_cons_of_mem c hk, h⟩
  exact (hfold ks none h).resolve_left nofun

theorem matched?_eq_some {ks : List Category} {p : Position} {rest behind : List Char}
    {c : Category} {s : Segment} (h : matched? ks p rest = some (c, s, behind)) :
    s.category = some c ∧ rest = s.text ++ behind ∧ s.text ≠ [] := by
  rw [matched?] at h
  split at h
  · cases h
  · rename_i k n hlongest
    split at h
    · cases h
    · rename_i text behind' hsplit
      simp only [Option.some.injEq, Prod.mk.injEq] at h
      obtain ⟨rfl, rfl, rfl⟩ := h
      obtain ⟨rfl, hn⟩ := splitBytes?_eq_some.mp hsplit
      obtain ⟨-, -, hpos⟩ := longestMatch?_eq_some hlongest
      exact ⟨rfl, rfl, byteCount_pos.mp (hn ▸ hpos)⟩

/-! ## Cutting -/

/-- The segment at the start of a text that is not empty, one character if nothing matches there,
and the text behind it. -/
def next (candidates : List Category) (p : Position) (c : Char) (cs : List Char) :
    Segment × List Char :=
  match matched? candidates p (c :: cs) with
  | none => (⟨none, [c], ⟨p, p.advance c cs.head?⟩⟩, cs)
  | some (_, s, rest) => (s, rest)

/-- The segments of the rest of a text. -/
def cutFrom (candidates : Char → List Category) :
    (fuel : Nat) → Position → List Char → List Segment
  | _, _, [] => []
  | 0, _, _ :: _ => []
  | fuel + 1, p, c :: cs =>
    let (s, rest) := next (candidates c) p c cs
    s :: cutFrom candidates fuel s.span.stop rest

/-- The segments of a text, where `candidates` are the categories that may match at a character. -/
def cut (candidates : Char → List Category) (text : List Char) : List Segment :=
  cutFrom candidates text.length .start text

/-! ## Joining -/

/-- Joins neighbours without a category; `run` is such a stretch with its parts reversed. -/
def joinUnmatchedFrom (done : List Segment) (run : List Segment) : List Segment → List Segment
  | [] => (flush done run).reverse
  | s :: rest =>
    if s.category.isNone then joinUnmatchedFrom done (s :: run) rest
    else joinUnmatchedFrom (s :: flush done run) [] rest
where
  /-- Puts a stretch without a category in front of what is done. -/
  flush (done run : List Segment) : List Segment :=
    match run.reverse with
    | [] => done
    | first :: others =>
      let last := run.headD first
      ⟨none, (first :: others).flatMap (·.text), ⟨first.span.start, last.span.stop⟩⟩ :: done

/-- The segments with neighbours that have no category made one. -/
def joinUnmatched (segments : List Segment) : List Segment := joinUnmatchedFrom [] [] segments

/-- Whether the segment is a token that counts: one that is not dropped. -/
def isKept (s : Segment) : Bool := s.category.any fun c => c.group != .skipped

/-- The segments in front of the first token that is one too many, and that token. -/
def limitFrom (done : List Segment) : (left : Nat) → List Segment → List Segment × Option Segment
  | _, [] => (done.reverse, none)
  | left, s :: rest =>
    if s.isKept then
      match left with
      | 0 => (done.reverse, some s)
      | left + 1 => limitFrom (s :: done) left rest
    else limitFrom (s :: done) left rest

/-- At most `limit` tokens that count, and the first one beyond them. -/
def limit (limit : Nat) (segments : List Segment) : List Segment × Option Segment :=
  limitFrom [] limit segments

/-- The token of a segment that has a category. -/
def token? (s : Segment) : Option (Category × Token) := s.category.map fun c => (c, s.token c)

/-- The report of a segment without a category. -/
def diagnostic? (s : Segment) : Option Diagnostic :=
  match s.category with
  | some _ => none
  | none => some s.unmatchedReport

end Segment

namespace Tokenization

def file (groups : Dictionary (List Token)) (x : Category × Token) : Dictionary (List Token) :=
  match x.1.group with
  | .named name => groups.alter name fun others => x.2 :: others.getD []
  | _ => groups

/-- The tokens of each named group, in the order of the text. -/
def groupsOf (tokens : List (Category × Token)) : Dictionary (List Token) :=
  (tokens.foldl file []).map fun (name, ts) => (name, ts.reverse)

/-- The position where the segments end. -/
def endOf (segments : List Segment) : Position :=
  (segments.getLast?.map (·.span.stop)).getD .start

/-- What the segments of a text of `size` bytes amount to, up to the token that is one too many. -/
def ofSegments (segments : List Segment) (beyond : Option Segment) (limit size : Nat)
    (usedDispatch : Bool) : Tokenization :=
  let tokens := segments.filterMap (·.token?)
  let reports := segments.filterMap (·.diagnostic?) ++ (beyond.map (overLimit limit size)).toList
  let normal := tokens.filterMap fun (c, t) => if c.group = .normal then some t else none
  { tokens := normal ++ [.eof (endOf segments)]
    groups := groupsOf tokens
    diagnostics := reports.take Limits.maxLexicalDiagnostics
    counts := {
      total := tokens.length
      skipped := (tokens.filter fun (c, _) => c.group == .skipped).length
      grouped := (tokens.filter fun (c, _) => c.group != .skipped && c.group != .normal).length
      unmatchedBytes :=
        (segments.filter (·.category.isNone)).foldl (fun n s => n + s.span.length) 0
      suppressed := reports.length - Limits.maxLexicalDiagnostics
      usedDispatch := usedDispatch } }

end Tokenization

/-- The segments of a text as the preferences want them reported. -/
def Tokenizer.segments (t : Tokenizer) (dispatch : Option DispatchTable) (text : List Char) :
    List Segment :=
  let pieces := Segment.cut (candidates t.model t.model.concrete dispatch) text
  match t.preferences.recovery with
  | .singleChar => pieces
  | .skipToNextMatch => Segment.joinUnmatched pieces

namespace Segment

/-- Segments without a category as one, from the first one to the last one. -/
def merged (run : List Segment) : Segment :=
  ⟨none, run.flatMap (·.text), .around (run.map (·.span))⟩

/-! ## Stretches without a category -/

/-- A list of segments ends with a stretch without a category, or it goes on behind one with a
segment that has a category. -/
theorem stretches_induction {P : List Segment → Prop}
    (last : ∀ run : List Segment, (∀ s ∈ run, s.category = none) → P run)
    (behind : ∀ (run : List Segment) (s : Segment) (rest : List Segment),
      (∀ s ∈ run, s.category = none) → s.category ≠ none → P rest → P (run ++ s :: rest))
    (segments : List Segment) : P segments := by
  have hall : ∀ rest run : List Segment, (∀ s ∈ run, s.category = none) → P (run ++ rest) := by
    intro rest
    induction rest with
    | nil => exact fun run hrun => (List.append_nil run).symm ▸ last run hrun
    | cons s rest ih =>
      intro run hrun
      by_cases hs : s.category = none
      · rw [List.append_cons]
        exact ih (run ++ [s]) (List.forall_mem_append.mpr ⟨hrun, List.forall_mem_singleton.mpr hs⟩)
      · exact behind run s rest hrun hs (ih [] (List.forall_mem_nil _))
  exact hall segments [] (List.forall_mem_nil _)

private theorem flush_eq (done run : List Segment) : joinUnmatchedFrom.flush done run
    = joinUnmatchedFrom.flush [] run ++ done := by
  rw [joinUnmatchedFrom.flush, joinUnmatchedFrom.flush]
  split <;> rfl

private theorem joinUnmatchedFrom_done (done run segments : List Segment) :
    joinUnmatchedFrom done run segments = done.reverse ++ joinUnmatchedFrom [] run segments := by
  induction segments generalizing done run with
  | nil => rw [joinUnmatchedFrom, joinUnmatchedFrom, flush_eq, List.reverse_append]
  | cons s segments ih =>
    rw [joinUnmatchedFrom, joinUnmatchedFrom]
    split
    · exact ih done (s :: run)
    · rw [ih (s :: _), ih (s :: joinUnmatchedFrom.flush [] run), flush_eq]
      simp

theorem joinUnmatchedFrom_append {run : List Segment} (h : ∀ s ∈ run, s.category = none)
    (before rest : List Segment) : joinUnmatchedFrom [] before (run ++ rest)
      = joinUnmatchedFrom [] (run.reverse ++ before) rest := by
  induction run generalizing before with
  | nil => rfl
  | cons s run ih =>
    rw [List.forall_mem_cons] at h
    rw [List.cons_append, joinUnmatchedFrom, if_pos (Option.isNone_iff_eq_none.mpr h.1), ih h.2,
      List.reverse_cons, List.append_assoc]
    rfl

theorem joinUnmatched_of_unmatched {run : List Segment} (h : ∀ s ∈ run, s.category = none) :
    joinUnmatched run = (joinUnmatchedFrom.flush [] run.reverse).reverse := by
  have happend := joinUnmatchedFrom_append h [] []
  rwa [List.append_nil, List.append_nil] at happend

/-- A stretch without a category becomes one segment. -/
theorem joinUnmatched_run {run : List Segment} (h : ∀ s ∈ run, s.category = none)
    (hne : run ≠ []) : joinUnmatched run = [merged run] := by
  rw [joinUnmatched_of_unmatched h, joinUnmatchedFrom.flush, List.reverse_reverse]
  cases run with
  | nil => exact absurd rfl hne
  | cons first others =>
    have hlast : ((first :: others).map (·.span)).getLastD .dummy
        = ((first :: others).reverse.headD first).span := by
      rw [List.getLastD_eq_getLast?, List.getLast?_map, List.headD_eq_head?_getD,
        List.head?_reverse, List.getLast?_eq_some_getLast (List.cons_ne_nil first others)]
      rfl
    simp only [merged, Span.around, hlast]
    rfl

/-- Joining goes on behind a segment that has a category as if the text began there. -/
theorem joinUnmatched_append_cons {s : Segment} (hs : s.category ≠ none)
    (front back : List Segment) :
    joinUnmatched (front ++ s :: back) = joinUnmatched front ++ s :: joinUnmatched back := by
  have hsome : ¬s.category.isNone = true := fun h => hs (Option.isNone_iff_eq_none.mp h)
  have hrun : ∀ (run : List Segment), (∀ x ∈ run, x.category = none) → ∀ (x : Segment)
      (rest : List Segment), ¬x.category.isNone = true →
        joinUnmatched (run ++ x :: rest) = joinUnmatched run ++ x :: joinUnmatched rest := by
    intro run h x rest hx
    rw [joinUnmatched_of_unmatched h, joinUnmatched, joinUnmatchedFrom_append h, List.append_nil,
      joinUnmatchedFrom, if_neg hx, joinUnmatchedFrom_done, List.reverse_cons, List.append_assoc]
    rfl
  induction front using stretches_induction with
  | last run h => exact hrun run h s back hsome
  | behind run x rest h hx ih =>
    have hx : ¬x.category.isNone = true := fun h => hx (Option.isNone_iff_eq_none.mp h)
    rw [List.append_assoc, List.cons_append, hrun run h x _ hx, ih, hrun run h x _ hx,
      List.append_assoc, List.cons_append]

/-- What relates stretches without a category to themselves as one segment, and goes on behind
segments that have one, relates all segments to what they are joined to. -/
theorem joinUnmatched_induction {P : List Segment → List Segment → Prop} (nil : P [] [])
    (last : ∀ run, run ≠ [] → (∀ s ∈ run, s.category = none) → P run [merged run])
    (token : ∀ s rest joined, s.category ≠ none → P rest joined → P (s :: rest) (s :: joined))
    (behind : ∀ run s rest joined, run ≠ [] → (∀ s ∈ run, s.category = none) →
      s.category ≠ none → P (s :: rest) (s :: joined) →
        P (run ++ s :: rest) (merged run :: s :: joined))
    (segments : List Segment) : P segments (joinUnmatched segments) := by
  induction segments using stretches_induction with
  | last run h =>
    by_cases hne : run = []
    · exact hne ▸ nil
    · exact joinUnmatched_run h hne ▸ last run hne h
  | behind run s rest h hs ih =>
    have hrest := token s rest _ hs ih
    rw [joinUnmatched_append_cons hs]
    by_cases hne : run = []
    · rw [hne]
      exact hrest
    · rw [joinUnmatched_run h hne]
      exact behind run s rest _ hne h hs hrest

/-! ## The limit on tokens -/

theorem limitFrom_done (done segments : List Segment) (left : Nat) :
    limitFrom done left segments
      = (done.reverse ++ (limit left segments).1, (limit left segments).2) := by
  rw [limit]
  induction segments generalizing done left with
  | nil => simp [limitFrom]
  | cons s segments ih =>
    unfold limitFrom
    split
    · cases left with
      | zero => simp
      | succ left => simp [ih (s :: done), ih [s]]
    · simp [ih (s :: done), ih [s]]

theorem limit_cons_of_isKept {s : Segment} (h : s.isKept = true) (segments : List Segment) :
    limit 0 (s :: segments) = ([], some s) := by
  simp [limit, limitFrom, h]

theorem limit_succ_cons_of_isKept {s : Segment} (h : s.isKept = true) (segments : List Segment)
    (left : Nat) : limit (left + 1) (s :: segments)
      = (s :: (limit left segments).1, (limit left segments).2) := by
  rw [limit, limitFrom, if_pos h]
  exact limitFrom_done [s] segments left

theorem limit_cons_of_not_isKept {s : Segment} (h : ¬s.isKept = true) (segments : List Segment)
    (left : Nat) : limit left (s :: segments)
      = (s :: (limit left segments).1, (limit left segments).2) := by
  have hstep : limitFrom [] left (s :: segments) = limitFrom [s] left segments := by
    rw [limitFrom.eq_def]
    exact if_neg h
  exact hstep.trans (limitFrom_done [s] segments left)

end Segment

end PredictiveParsing
