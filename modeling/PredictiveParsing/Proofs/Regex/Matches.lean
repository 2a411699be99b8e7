import PredictiveParsing.Proofs.Text.Places
import PredictiveParsing.Regex.Search

/-!
# Matches

What an expression says about a part of a text, as a relation that knows nothing of searches: the
part and the characters on both sides of it. A search that follows an expression through a text ends
where such a part does.
-/

namespace PredictiveParsing.Regex

/-- The character in front of the place behind some characters. -/
def lastOf (before : Option Char) (xs : List Char) : Option Char := xs.getLast?.or before

theorem lastOf_cons (before : Option Char) (c : Char) (xs : List Char) :
    lastOf before (c :: xs) = lastOf (some c) xs := by
  rw [lastOf, lastOf, List.getLast?_cons]
  cases xs.getLast? <;> rfl

private theorem lastOf_none (xs : List Char) : lastOf none xs = xs.getLast? := Option.or_none

variable [Dialect]

/-- The expression matches the characters `xs` between the character `before` and the text
`rest`. -/
inductive Matches : Regex → (before : Option Char) → (xs rest : List Char) → Prop where
  | empty {before rest} : Matches .empty before [] rest
  | chars {s before c rest} (h : s.contains c = true) : Matches (.chars s) before [c] rest
  | look {l before rest} (h : l.holds before rest.head? = true) : Matches (.look l) before [] rest
  | cat {a b before xs ys rest} (ha : Matches a before xs (ys ++ rest))
      (hb : Matches b (lastOf before xs) ys rest) : Matches (.cat a b) before (xs ++ ys) rest
  | left {a b before xs rest} (h : Matches a before xs rest) : Matches (.alt a b) before xs rest
  | right {a b before xs rest} (h : Matches b before xs rest) : Matches (.alt a b) before xs rest
  | plus {greedy a before xs ys rest} (ha : Matches a before xs (ys ++ rest))
      (hb : Matches (.again greedy a) (lastOf before xs) ys rest) :
      Matches (.plus greedy a) before (xs ++ ys) rest
  | stop {greedy a before rest} : Matches (.again greedy a) before [] rest
  | again {greedy a before xs ys rest} (ha : Matches a before xs (ys ++ rest))
      (hb : Matches (.again greedy a) (lastOf before xs) ys rest) :
      Matches (.again greedy a) before (xs ++ ys) rest

private theorem Matches.cat_nil_left {a b : Regex} {before : Option Char} {ys rest : List Char}
    (ha : a.Matches before [] (ys ++ rest)) (hb : b.Matches before ys rest) :
    (Regex.cat a b).Matches before ys rest :=
  .cat ha hb

theorem Matches.of_andThen {a b : Regex} {before : Option Char} {xs rest : List Char}
    (h : (a.andThen b).Matches before xs rest) : ∃ ys zs, xs = ys ++ zs ∧
      a.Matches before ys (zs ++ rest) ∧ b.Matches (lastOf before ys) zs rest := by
  rw [andThen] at h
  split at h
  · subst a
    exact ⟨[], xs, rfl, .empty, h⟩
  · split at h
    · subst b
      exact ⟨xs, [], (List.append_nil xs).symm, h, .empty⟩
    · cases h with
      | cat ha hb => exact ⟨_, _, rfl, ha, hb⟩

/-! ## Ways -/

section Ways

variable {e a b : Regex} {before after : Option Char} {w : Way} {ws : List Way} {s : CharClass}
  {r : Regex}

omit [Dialect] in
private theorem Way.mem_of_mem_dropRepeats (h : w ∈ Way.dropRepeats ws) : w ∈ ws := by
  induction ws with
  | nil => exact h
  | cons v ws ih =>
    cases v with
    | done =>
      rcases List.mem_cons.mp h with rfl | h
      · exact List.mem_cons_self
      · exact List.mem_cons_of_mem _ (List.mem_filter.mp h).1
    | step s r =>
      rcases List.mem_cons.mp h with rfl | h
      · exact List.mem_cons_self
      · exact List.mem_cons_of_mem _ (ih h)

omit [Dialect] in
private theorem Way.mem_followedBy {next : Regex} (h : w ∈ Way.followedBy next ws) :
    ∃ s r, w = .step s (r.andThen next) ∧ .step s r ∈ ws := by
  induction ws with
  | nil => cases h
  | cons v ws ih =>
    cases v with
    | done =>
      obtain ⟨s, r, hw, hr⟩ := ih h
      exact ⟨s, r, hw, List.mem_cons_of_mem _ hr⟩
    | step s r =>
      rcases List.mem_cons.mp h with rfl | h
      · exact ⟨s, r, rfl, List.mem_cons_self⟩
      · obtain ⟨s, r, hw, hr⟩ := ih h
        exact ⟨s, r, hw, List.mem_cons_of_mem _ hr⟩

omit [Dialect] in
private theorem Way.mem_untilDone (h : w ∈ (Way.untilDone ws).1) : w ∈ ws := by
  induction ws with
  | nil => exact h
  | cons v ws ih =>
    cases v with
    | done => cases h
    | step s r =>
      rcases List.mem_cons.mp h with rfl | h
      · exact List.mem_cons_self
      · exact List.mem_cons_of_mem _ (ih h)

omit [Dialect] in
private theorem Way.done_mem_of_untilDone (h : (Way.untilDone ws).2 = true) : Way.done ∈ ws := by
  induction ws with
  | nil => cases h
  | cons v ws ih =>
    cases v with
    | done => exact List.mem_cons_self
    | step s r => exact List.mem_cons_of_mem _ (ih h)

/-- To go this way between two characters is to match the expression there. -/
def Way.Leads (e : Regex) (before after : Option Char) : Way → Prop
  | done => ∀ rest : List Char, rest.head? = after → e.Matches before [] rest
  | step s r => ∀ (c : Char) (xs rest : List Char), after = some c → s.contains c = true →
    r.Matches (some c) xs rest → e.Matches before (c :: xs) rest

private theorem leads_step {e' : Regex} (ha : Way.Leads a before after (.step s r))
    (hcat : ∀ {xs ys rest}, a.Matches before xs (ys ++ rest) →
      b.Matches (lastOf before xs) ys rest → e'.Matches before (xs ++ ys) rest) :
    Way.Leads e' before after (.step s (r.andThen b)) := by
  intro c xs rest hafter hc h
  obtain ⟨ys, zs, rfl, hr, hb⟩ := h.of_andThen
  refine hcat (ha c ys (zs ++ rest) hafter hc hr) ?_
  rw [lastOf_cons]
  exact hb

theorem leads_of_mem_ways (h : w ∈ ways before after e) : w.Leads e before after := by
  induction e generalizing w with
  | empty =>
    obtain rfl := List.mem_singleton.mp h
    exact fun _ _ => .empty
  | chars s =>
    obtain rfl := List.mem_singleton.mp h
    intro c xs rest _ hc hempty
    cases hempty
    exact .chars hc
  | look l =>
    unfold ways at h
    split at h
    · obtain rfl := List.mem_singleton.mp h
      rintro rest rfl
      exact .look ‹_›
    · cases h
  | cat a b iha ihb =>
    obtain ⟨v, hv, hw⟩ := List.mem_flatMap.mp (Way.mem_of_mem_dropRepeats h)
    have hleads := iha hv
    cases v with
    | done =>
      have hrest := ihb hw
      cases w with
      | done => exact fun rest hafter => .cat_nil_left (hleads rest hafter) (hrest rest hafter)
      | step s r =>
        intro c xs rest hafter hc h
        exact .cat_nil_left (hleads (c :: xs ++ rest) hafter.symm) (hrest c xs rest hafter hc h)
    | step s r =>
      obtain rfl := List.mem_singleton.mp hw
      exact leads_step hleads .cat
  | alt a b iha ihb =>
    rcases List.mem_append.mp (Way.mem_of_mem_dropRepeats h) with h | h
    · have hleads := iha h
      cases w with
      | done => exact fun rest hafter => .left (hleads rest hafter)
      | step s r => exact fun c xs rest hafter hc h => .left (hleads c xs rest hafter hc h)
    · have hleads := ihb h
      cases w with
      | done => exact fun rest hafter => .right (hleads rest hafter)
      | step s r => exact fun c xs rest hafter hc h => .right (hleads c xs rest hafter hc h)
  | plus greedy a ih =>
    obtain ⟨v, hv, rfl⟩ := List.mem_map.mp h
    have hleads := ih hv
    cases v with
    | done => exact fun rest hafter => .plus (hleads rest hafter) .stop
    | step s r => exact leads_step hleads .plus
  | again greedy a ih =>
    have hround : ∀ {w}, w ∈ Way.followedBy (again greedy a) (ways before after a) →
        w.Leads (again greedy a) before after := by
      intro w hw
      obtain ⟨s, r, rfl, hr⟩ := Way.mem_followedBy hw
      exact leads_step (ih hr) .again
    unfold ways at h
    split at h
    · rcases List.mem_append.mp h with h | h
      · exact hround h
      · obtain rfl := List.mem_singleton.mp h
        exact fun _ _ => .stop
    · rcases List.mem_cons.mp h with rfl | h
      · exact fun _ _ => .stop
      · exact hround h

end Ways

/-! ## Searches -/

omit [Dialect] in
private theorem mem_ways_of_mem_frontier {before after : Option Char} {s : CharClass}
    {rest : Regex} : ∀ {rs : List Regex}, (s, rest) ∈ (frontier before after rs).1 →
      ∃ r ∈ rs, .step s rest ∈ ways before after r
  | [], h => by cases h
  | r :: rs, h => by
    have hmove : ∀ {p}, p ∈ ((Way.untilDone (ways before after r)).1.filterMap fun
        | .done => none
        | .step s rest => some (s, rest)) → .step p.1 p.2 ∈ ways before after r := by
      intro p hp
      obtain ⟨w, hw, hwp⟩ := List.mem_filterMap.mp hp
      have hmem := Way.mem_untilDone hw
      cases w with
      | done => cases hwp
      | step s rest =>
        obtain rfl := Option.some.inj hwp
        exact hmem
    unfold frontier at h
    dsimp only at h
    split at h
    · exact ⟨r, List.mem_cons_self, hmove h⟩
    · rcases List.mem_append.mp h with h | h
      · exact ⟨r, List.mem_cons_self, hmove h⟩
      · obtain ⟨r', hr', hs⟩ := mem_ways_of_mem_frontier h
        exact ⟨r', List.mem_cons_of_mem _ hr', hs⟩

omit [Dialect] in
private theorem mem_of_mem_dropDuplicates {rs : List Regex} {r : Regex}
    (h : r ∈ dropDuplicates rs) : r ∈ rs := by
  have hfold : ∀ (rs kept : List Regex),
      r ∈ rs.foldl (fun kept r => if kept.contains r then kept else r :: kept) kept →
        r ∈ rs ∨ r ∈ kept := by
    intro rs
    induction rs with
    | nil => exact fun kept h => .inr h
    | cons x rs ih =>
      intro kept h
      rcases ih _ h with h | h
      · exact .inl (List.mem_cons_of_mem _ h)
      · dsimp only at h
        split at h
        · exact .inr h
        · rcases List.mem_cons.mp h with rfl | h
          · exact .inl List.mem_cons_self
          · exact .inr h
  rcases hfold rs [] (List.mem_reverse.mp h) with h | h
  · exact h
  · cases h

private theorem exists_of_mem_frontier {before after : Option Char} {rs : List Regex}
    {s : CharClass} {r : Regex} (h : (s, r) ∈ (frontier before after rs).1) :
    ∃ e ∈ rs, (Way.step s r).Leads e before after := by
  obtain ⟨e, he, hway⟩ := mem_ways_of_mem_frontier h
  exact ⟨e, he, leads_of_mem_ways hway⟩

private theorem exists_of_frontier_done {before after : Option Char} {rs : List Regex}
    (h : (frontier before after rs).2 = true) :
    ∃ e ∈ rs, Way.done.Leads e before after := by
  induction rs with
  | nil => cases h
  | cons r rs ih =>
    unfold frontier at h
    dsimp only at h
    split at h
    · exact ⟨r, List.mem_cons_self, leads_of_mem_ways (Way.done_mem_of_untilDone ‹_›)⟩
    · obtain ⟨e, he, hleads⟩ := ih h
      exact ⟨e, List.mem_cons_of_mem _ he, hleads⟩

/-- Where a search ends, one of the expressions that it follows has matched what it has read. -/
theorem matches_of_follow {before : Option Char} {rs : List Regex} {place n : Nat}
    {best : Option Nat} {text : List Char} (h : follow before rs place best text = some n) :
    best = some n ∨ ∃ e ∈ rs, ∃ xs rest, text = xs ++ rest ∧ n = place + byteCount xs ∧
      e.Matches before xs rest := by
  -- whether a match ends where the search is
  have hhere : ∀ {before rs place} {best : Option Nat} (text : List Char),
      (if (frontier before text.head? rs).2 then some place else best) = some n →
        best = some n ∨ ∃ e ∈ rs, ∃ xs rest, text = xs ++ rest ∧ n = place + byteCount xs ∧
          e.Matches before xs rest := by
    intro before rs place best text h
    split at h
    · obtain rfl := Option.some.inj h
      obtain ⟨e, he, hleads⟩ := exists_of_frontier_done ‹_›
      exact .inr ⟨e, he, [], text, rfl, rfl, hleads text rfl⟩
    · exact .inl h
  induction text generalizing before rs place best with
  | nil => exact hhere [] h
  | cons c cs ih =>
    unfold follow at h
    dsimp only at h
    split at h
    · exact hhere (c :: cs) h
    · rename_i next hnext
      rcases ih h with hbest | ⟨r, hr, xs, rest, rfl, hn, hmatch⟩
      · exact hhere (c :: cs) hbest
      · obtain ⟨⟨s, r'⟩, hmem, hs⟩ := List.mem_filterMap.mp (mem_of_mem_dropDuplicates hr)
        dsimp only at hs
        split at hs
        · rename_i hc
          obtain rfl := Option.some.inj hs
          obtain ⟨e, he, hleads⟩ := exists_of_mem_frontier hmem
          refine .inr ⟨e, he, c :: xs, rest, rfl, ?_, hleads c xs rest rfl hc hmatch⟩
          rw [hn, byteCount_cons, Nat.add_assoc]
        · cases hs

private theorem matches_of_searchFrom {r : Regex} {before : Option Char} {place i j : Nat}
    {text : List Char} (h : r.searchFrom before place text = some (i, j)) :
    ∃ front image rest, text = front ++ image ++ rest ∧ place + byteCount front = i ∧
      place + byteCount (front ++ image) = j ∧ r.Matches (lastOf before front) image rest := by
  have hhere : ∀ {before place stop} {text : List Char},
      follow before [r] place none text = some stop →
      ∃ front image rest, text = front ++ image ++ rest ∧ place + byteCount front = place ∧
        place + byteCount (front ++ image) = stop ∧ r.Matches (lastOf before front) image rest := by
    intro before place stop text h
    obtain ⟨e, he, image, rest, htext, hstop, hmatch⟩ := (matches_of_follow h).resolve_left nofun
    obtain rfl := List.mem_singleton.mp he
    exact ⟨[], image, rest, htext, rfl, hstop.symm, hmatch⟩
  induction text generalizing before place with
  | nil =>
    obtain ⟨stop, hstop, h⟩ := Option.map_eq_some_iff.mp h
    obtain ⟨rfl, rfl⟩ := Prod.mk.inj h
    exact hhere hstop
  | cons c cs ih =>
    rw [searchFrom] at h
    split at h
    · obtain ⟨rfl, rfl⟩ := Prod.mk.inj (Option.some.inj h)
      exact hhere ‹_›
    · split at h
      · cases h
      · obtain ⟨front, image, rest, rfl, hi, hj, hmatch⟩ := ih h
        refine ⟨c :: front, image, rest, rfl, ?_, ?_, ?_⟩
        · rw [byteCount_cons, ← hi, Nat.add_assoc]
        · rw [List.cons_append, byteCount_cons, ← hj, Nat.add_assoc]
        · rw [lastOf_cons]
          exact hmatch

theorem matches_of_find? {r : Regex} {i j : Nat} {text : List Char}
    (h : r.find? text = some (i, j)) :
    ∃ front image rest, text = front ++ image ++ rest ∧ byteCount front = i ∧
      byteCount (front ++ image) = j ∧ r.Matches front.getLast? image rest := by
  obtain ⟨front, image, rest, htext, hi, hj, hmatch⟩ := matches_of_searchFrom h
  rw [Nat.zero_add] at hi hj
  rw [lastOf_none] at hmatch
  exact ⟨front, image, rest, htext, hi, hj, hmatch⟩

end PredictiveParsing.Regex
