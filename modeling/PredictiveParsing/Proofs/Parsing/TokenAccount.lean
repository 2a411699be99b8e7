import Mathlib.Algebra.GroupWithZero.Nat
import PredictiveParsing.Proofs.Parsing.Effects
import PredictiveParsing.Proofs.Parsing.RecoveryAgreement

/-!
# Every token is accounted for

A parse uses up the tokens of its input in their order, each of them once. A token is returned by a
step that consumes it, deleted by a repair, or skipped where a rule is given up.
-/

namespace PredictiveParsing

/-- What becomes of a token, or of some tokens in a row. -/
inductive TokenUse where
  | returned (t : Token)
  /-- The token is what a report of its deletion is about. -/
  | deleted (report : Diagnostic)
  | skipped (report : Diagnostic) (n : Nat)

namespace Diagnostic

/-- The number of tokens that were skipped up to one that can follow the rule that failed. -/
def skipped (d : Diagnostic) : Nat :=
  match d.recovery with
  | .resynced n => n
  | _ => 0

/-- What a report says about tokens that were passed over. -/
def use? (d : Diagnostic) : Option TokenUse :=
  match d.recovery with
  | .deleted => some (.deleted d)
  | .resynced n => some (.skipped d n)
  | _ => none

end Diagnostic

namespace TokenUse

/-- The number of tokens. -/
def size : TokenUse → Nat
  | returned _ => 1
  | deleted _ => 1
  | skipped _ n => n

end TokenUse

/-- The uses are those of the tokens from index `i` up to index `j`, one after the other. -/
inductive TokenStream.UsedUp (tokens : TokenStream) : (i : Nat) → List TokenUse → (j : Nat) → Prop
  | nil {i : Nat} : UsedUp tokens i [] i
  | returned {i j : Nat} {uses : List TokenUse} (h : i < tokens.endIndex)
      (rest : UsedUp tokens (i + 1) uses j) :
      UsedUp tokens i (.returned (tokens.get i) :: uses) j
  | deleted {i j : Nat} {uses : List TokenUse} (d : Diagnostic) (h : i < tokens.endIndex)
      (recovery : d.recovery = .deleted) (actual : d.actual = some (tokens.get i))
      (rest : UsedUp tokens (i + 1) uses j) : UsedUp tokens i (.deleted d :: uses) j
  | skipped {i j : Nat} {uses : List TokenUse} (d : Diagnostic) (n : Nat)
      (h : i + n ≤ tokens.endIndex) (recovery : d.recovery = .resynced n)
      (rest : UsedUp tokens (i + n) uses j) : UsedUp tokens i (.skipped d n :: uses) j

namespace Deed

variable {V : Type} (c : ParseContext V)

/-- The token of the input that a step returns. A token that is supplied is none, nor is the end of
the input. -/
def taken? (d : Deed V) : Option Token :=
  if (d.reports c).any (·.recovery = .inserted) then none
  else if c.tokens.endIndex ≤ d.state.cursor + (d.reports c).length then none
  else d.returned? c

/-- The tokens that a deed uses up: those that it passes over, and the one that it returns. -/
def uses (d : Deed V) : List TokenUse :=
  (d.reports c).filterMap (·.use?) ++ (d.taken? c).toList.map .returned

end Deed

namespace TokenStream.UsedUp

variable {tokens : TokenStream} {i j k : Nat} {xs ys : List TokenUse}

theorem append (h : tokens.UsedUp i xs j) (h' : tokens.UsedUp j ys k) :
    tokens.UsedUp i (xs ++ ys) k := by
  induction h with
  | nil => exact h'
  | returned h _ ih => exact .returned h (ih h')
  | deleted d h recovery actual _ ih => exact .deleted d h recovery actual (ih h')
  | skipped d n h recovery _ ih => exact .skipped d n h recovery (ih h')

/-- The parse has gone forward by the tokens that were used up. -/
theorem eq_add_sum (h : tokens.UsedUp i xs j) : j = i + (xs.map (·.size)).sum := by
  induction h with
  | nil => rfl
  | returned h _ ih => simp [TokenUse.size, ih, Nat.add_assoc]
  | deleted d h recovery actual _ ih => simp [TokenUse.size, ih, Nat.add_assoc]
  | skipped d n h recovery _ ih => simp [TokenUse.size, ih, Nat.add_assoc]

theorem le_endIndex (h : tokens.UsedUp i xs j) (hi : i ≤ tokens.endIndex) :
    j ≤ tokens.endIndex := by
  induction h with
  | nil => exact hi
  | returned h _ ih => exact ih h
  | deleted d h recovery actual _ ih => exact ih h
  | skipped d n h recovery _ ih => exact ih h

end TokenStream.UsedUp

namespace Deed

variable {V : Type} {c : ParseContext V} {d : Deed V}

theorem Takes.usedUp {tokens : TokenStream} {i : Nat} {t : Option Token} {j : Nat}
    (h : tokens.Takes i t j) :
    tokens.UsedUp i ((if tokens.endIndex ≤ i then none else t).toList.map .returned) j := by
  cases h with
  | nothing =>
    rw [ite_self]
    exact .nil
  | token h =>
    rw [if_neg (Nat.not_le_of_lt h)]
    exact .returned h .nil
  | last h =>
    rw [if_pos h]
    exact .nil

/-- A deed uses up the tokens by which it goes forward. -/
theorem Effect.usedUp (h : d.Effect c) :
    c.tokens.UsedUp d.state.cursor (d.uses c) (d.after c).cursor := by
  have hdoes := h.does
  simp only [uses, taken?]
  generalize d.reports c = reports, d.returned? c = t, (d.after c).cursor = j at hdoes
  cases hdoes with
  | goOn h => simpa using Takes.usedUp h
  | delete x step on recovery code about inside h =>
    have hrest := Takes.usedUp h
    simpa [Diagnostic.use?, recovery] using .deleted x inside recovery about.1 hrest
  | insert x step on recovery code about supplied =>
    simpa [Diagnostic.use?, recovery] using .nil
  | resync x act inner on n recovery code about inside =>
    simpa [Diagnostic.use?, recovery] using .skipped x n inside recovery .nil
  | giveUp act outermost =>
    simpa [Diagnostic.use?, ParseContext.diagnosis, Diagnostic.syntactic] using .nil
  | leftOver x act code expected recovery about =>
    simpa [Diagnostic.use?, recovery] using .nil

/-! ## Numbers of tokens -/

private theorem sum_size_use? (reports : List Diagnostic) :
    ((reports.filterMap (·.use?)).map (·.size)).sum
      = reports.countP (·.recovery = .deleted) + (reports.map (·.skipped)).sum := by
  induction reports with
  | nil => rfl
  | cons x reports ih =>
    have hx : (x.use?.toList.map (·.size)).sum
        = (if x.recovery = .deleted then 1 else 0) + x.skipped := by
      simp only [Diagnostic.use?, Diagnostic.skipped]
      cases x.recovery <;> simp [TokenUse.size]
    simp only [List.filterMap_cons, List.countP_cons, List.map_cons, List.sum_cons,
      decide_eq_true_eq]
    cases hu : x.use? with
    | none =>
      rw [hu] at hx
      simp only [Option.toList_none, List.map_nil, List.sum_nil] at hx
      simp only [ih]
      omega
    | some use =>
      rw [hu] at hx
      simp only [Option.toList_some, List.map_cons, List.map_nil, List.sum_cons, List.sum_nil] at hx
      simp only [List.map_cons, List.sum_cons, ih]
      omega

private theorem sum_size_uses (deeds : List (Deed V)) :
    ((deeds.flatMap (·.uses c)).map (·.size)).sum
      = (deeds.filterMap (·.taken? c)).length
        + (deeds.flatMap (·.reports c)).countP (·.recovery = .deleted)
        + ((deeds.flatMap (·.reports c)).map (·.skipped)).sum := by
  induction deeds with
  | nil => rfl
  | cons d deeds ih =>
    have hdeed : ((d.uses c).map (·.size)).sum = (d.taken? c).toList.length
        + (d.reports c).countP (·.recovery = .deleted) + ((d.reports c).map (·.skipped)).sum := by
      rw [uses, List.map_append, List.sum_append, sum_size_use?]
      cases d.taken? c with
      | none => simp
      | some t =>
        simp only [Option.toList_some, List.map_cons, List.map_nil, List.sum_cons, List.sum_nil,
          TokenUse.size, List.length_singleton]
        omega
    have htaken : ((d :: deeds).filterMap (·.taken? c)).length
        = (d.taken? c).toList.length + (deeds.filterMap (·.taken? c)).length := by
      rw [List.filterMap_cons]
      cases d.taken? c <;> simp [Nat.add_comm]
    simp only [List.flatMap_cons, List.map_append, List.sum_append, List.countP_append, hdeed, ih,
      htaken]
    omega

end Deed

namespace ParseContext

variable {V : Type} {c : ParseContext V}

/-- Deeds in a row use up the tokens by which they go forward, and what they report is kept or
counted. -/
theorem usedUp_of_leads {s u : ParseState} {deeds : List (Deed V)} (h : c.Leads s deeds u)
    (hi : s.cursor ≤ c.tokens.endIndex) :
    c.tokens.UsedUp s.cursor (deeds.flatMap (·.uses c)) u.cursor
      ∧ s.Reported c.registry.preferences.diagnosticLimit (deeds.flatMap (·.reports c)) u := by
  induction deeds generalizing s with
  | nil =>
    obtain rfl : s = u := h
    exact ⟨.nil, .nothing rfl rfl⟩
  | cons d deeds ih =>
    obtain ⟨rfl, hrest⟩ := h
    have heffect := d.effect hi
    have huses := heffect.usedUp
    obtain ⟨hlater, hreports⟩ := ih hrest (huses.le_endIndex hi)
    exact ⟨huses.append hlater, heffect.reported.append hreports⟩

end ParseContext

namespace Session

variable {V : Type}

open Registry

/-- A parse goes from its start through its deeds to what it gives back. -/
theorem exists_leads {s : Session V} {start : String} {id : RuleId} {rule : Rule V}
    (h : s.context.registry.find? start = some (id, rule)) :
    ∃ out t u, s.invoke start = (.ok out, t)
      ∧ s.context.Leads (s.context.startState rule s.state) (s.deeds start) u
      ∧ out.syntactic = u.diagnostics.toList ∧ out.suppressed = u.suppressed
      ∧ t.state.cursor = u.cursor := by
  have hdeeds : s.deeds start = s.context.deeds id rule s.state := by simp only [deeds, h]
  refine ⟨_, _, s.context.reportRest (s.context.parseRule id rule
    (s.context.startState rule s.state)).2, invoke_of_find? rfl h, ?_, rfl, rfl, rfl⟩
  exact hdeeds ▸ s.context.leads_deeds id rule s.state

/-- The tokens of the input up to the place where a parse stops are used up by its deeds, each of
them once. They are as many as the tokens that were returned, deleted and skipped. -/
theorem accounts_for_tokens {s : Session V} {start : String} {id : RuleId} {rule : Rule V}
    (h : s.context.registry.find? start = some (id, rule)) :
    ∃ out t u, s.invoke start = (.ok out, t)
      ∧ s.context.Leads (s.context.startState rule s.state) (s.deeds start) u
      ∧ t.state.cursor = u.cursor
      ∧ s.context.tokens.UsedUp 0 ((s.deeds start).flatMap (·.uses s.context)) t.state.cursor
      ∧ t.state.cursor ≤ s.context.tokens.endIndex
      ∧ out.syntactic = ((s.deeds start).flatMap (·.reports s.context)).take
        s.context.registry.preferences.diagnosticLimit
      ∧ out.suppressed = ((s.deeds start).flatMap (·.reports s.context)).length
        - s.context.registry.preferences.diagnosticLimit
      ∧ (out.suppressed = 0 →
        t.state.cursor = ((s.deeds start).filterMap (·.taken? s.context)).length
          + out.syntactic.countP (·.recovery = .deleted)
          + (out.syntactic.map (·.skipped)).sum) := by
  obtain ⟨out, t, u, hinvoke, hleads, hkept, hsuppressed, hcursor⟩ := exists_leads h
  obtain ⟨huses, hreported⟩ := ParseContext.usedUp_of_leads hleads (Nat.zero_le _)
  have hsyntactic : out.syntactic = ((s.deeds start).flatMap (·.reports s.context)).take
      s.context.registry.preferences.diagnosticLimit := hkept.trans hreported.kept
  have hcount : out.suppressed = ((s.deeds start).flatMap (·.reports s.context)).length
      - s.context.registry.preferences.diagnosticLimit :=
    hsuppressed.trans (hreported.suppressed.trans (Nat.zero_add _))
  refine ⟨out, t, u, hinvoke, hleads, hcursor, hcursor ▸ huses,
    hcursor ▸ huses.le_endIndex (Nat.zero_le _), hsyntactic, hcount, fun hzero => ?_⟩
  have hall : out.syntactic = (s.deeds start).flatMap (·.reports s.context) := by
    rw [hsyntactic, List.take_of_length_le (by omega)]
  rw [hcursor, huses.eq_add_sum, Deed.sum_size_uses, hall]
  exact Nat.zero_add _

def noisySession : Session Unit :=
  ⟨⟨itemList, itemAnalysis, ⟨#[.placeholder 2 .start, .placeholder 1 .start], .eof .start,
    Token.category_eof .start⟩⟩, [], .start⟩

theorem find?_itemList : itemList.find? "list" = some (0, listRule) :=
  finalized_itemList.built.wellFormed.find?_eq_some.mpr ⟨by simp [rules_itemList], rfl⟩

set_option maxRecDepth 4000 in
/-- The comma is deleted and the item is taken. -/
theorem accounts_for_tokens_noisySession : ∃ out t, noisySession.invoke "list" = (.ok out, t)
    ∧ t.state.cursor = 2 ∧ out.syntactic.map (·.recovery) = [.deleted]
    ∧ ((noisySession.deeds "list").filterMap (·.taken? noisySession.context)).length = 1 := by
  obtain ⟨out, t, u, hinvoke, -, -, -, -, -, -, hcount⟩ := accounts_for_tokens
    (s := noisySession) find?_itemList
  have hcursor : (noisySession.invoke "list").2.state.cursor = 2 := by cbv
  have hout : (noisySession.invoke "list").1.toOption.map (fun out =>
      (out.suppressed, out.syntactic.map (·.recovery))) = some (0, [.deleted]) := by cbv
  rw [hinvoke] at hcursor hout
  obtain ⟨hsuppressed, hrecoveries⟩ := Prod.mk.inj (Option.some.inj hout)
  have hskipped : (out.syntactic.map (·.skipped)).sum = 0 ∧
      out.syntactic.countP (·.recovery = .deleted) = 1 := by
    obtain ⟨x, hx, hrecovery⟩ := List.map_eq_singleton_iff.mp hrecoveries
    simp [hx, Diagnostic.skipped, hrecovery]
  refine ⟨out, t, hinvoke, hcursor, hrecoveries, ?_⟩
  have htotal := hcount hsuppressed
  change t.state.cursor = 2 at hcursor
  rw [hcursor, hskipped.1, hskipped.2] at htotal
  exact (Nat.succ.inj htotal).symm

end Session

end PredictiveParsing
