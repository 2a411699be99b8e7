import PredictiveParsing.Proofs.Lexing.Tokenization
import PredictiveParsing.Proofs.Parsing.Causes
import PredictiveParsing.Proofs.Parsing.Invariants
import PredictiveParsing.Proofs.Parsing.TokenAccount

/-!
# The order of diagnostics

A parse first reports its repairs, then the failure of the start rule if there is one, and at last
the tokens that are left over if there are any. All of these are about tokens in the order of the
input.
-/

namespace PredictiveParsing

/-- Something was done about what was wrong. -/
def Diagnostic.IsRepair (d : Diagnostic) : Prop :=
  d.recovery = .deleted ∨ d.recovery = .inserted ∨ ∃ n, d.recovery = .resynced n

/-- Diagnostics of a parse with a start rule: repairs, which there are only if they are enabled, one
failure of the start rule at most, and one report of tokens left over at most. -/
structure ReportShape (recoveryEnabled : Bool) (start : String)
    (repairs failures rest : List Diagnostic) : Prop where
  isRepair : ∀ d ∈ repairs, d.IsRepair
  recovery : repairs ≠ [] → recoveryEnabled = true
  isFailure : ∀ d ∈ failures, d.recovery = .none ∧ d.ruleStack = [start]
  length_failures : failures.length ≤ 1
  isRest : ∀ d ∈ rest, d.recovery = .none ∧ d.code = Code.notAllInputParsed
    ∧ d.expected = [CategoryId.eof]
  length_rest : rest.length ≤ 1

/-- The diagnostics are about tokens of the stream, in their order. -/
def TokenStream.InOrder (tokens : TokenStream) (ds : List Diagnostic) : Prop :=
  ∃ indices : List Nat, List.Forall₂ (fun d i => d.IsAbout (tokens.get i)) ds indices
    ∧ indices.Pairwise (· ≤ ·) ∧ ∀ i ∈ indices, i ≤ tokens.endIndex

/-! ## Up to a limit -/

theorem ReportShape.take {on : Bool} {start : String} {repairs failures rest : List Diagnostic}
    (h : ReportShape on start repairs failures rest) (n m k : Nat) :
    ReportShape on start (repairs.take n) (failures.take m) (rest.take k) where
  isRepair d hd := h.isRepair d (List.mem_of_mem_take hd)
  recovery hne := h.recovery fun hnil => hne (by rw [hnil, List.take_nil])
  isFailure d hd := h.isFailure d (List.mem_of_mem_take hd)
  length_failures := (List.take_sublist m failures).length_le.trans h.length_failures
  isRest d hd := h.isRest d (List.mem_of_mem_take hd)
  length_rest := (List.take_sublist k rest).length_le.trans h.length_rest

theorem TokenStream.InOrder.take {tokens : TokenStream} {ds : List Diagnostic}
    (h : tokens.InOrder ds) (n : Nat) : tokens.InOrder (ds.take n) := by
  obtain ⟨indices, habout, hpairwise, hle⟩ := h
  exact ⟨indices.take n, List.forall₂_take n habout, hpairwise.sublist (List.take_sublist n _),
    fun i hi => hle i (List.mem_of_mem_take hi)⟩

/-! ## What deeds report -/

namespace ParseContext

variable {V : Type} {c : ParseContext V}

open Parse

def Inside (s : ParseState) (_ : Body V) : Prop := s.stack ≠ []

def IsNext (c : ParseContext V) (s : ParseState) (f : Failure) : Prop := f.actual = c.ahead s 1

/-- A parse goes on in rules, and failures are about the token in front of which they occur. -/
theorem invariant_inside : c.Invariant Inside c.IsNext where
  onward hs ht := by rwa [Inside, ht.stack_eq]
  part hs _ := hs
  call _ := List.cons_ne_nil _ _
  opening _ hf := by
    obtain ⟨rfl, cause, -, rfl⟩ := Body.failsFor_opening _ _ _ _ hf
    rfl
  tooDeep _ := rfl
  leave hf := hf

theorem cursor_of_leads {s u : ParseState} {deeds : List (Deed V)} (h : c.Leads s deeds u)
    (hi : s.cursor ≤ c.tokens.endIndex) :
    ∀ d ∈ deeds, s.cursor ≤ d.state.cursor ∧ d.state.cursor ≤ c.tokens.endIndex := by
  induction deeds generalizing s with
  | nil => exact nofun
  | cons d deeds ih =>
    obtain ⟨rfl, hrest⟩ := h
    have huses := (d.effect hi).usedUp
    have hle : d.state.cursor ≤ (d.after c).cursor := huses.eq_add_sum ▸ Nat.le_add_right _ _
    refine List.forall_mem_cons.mpr ⟨⟨Nat.le_refl _, hi⟩, fun e he => ?_⟩
    obtain ⟨hlater, hend⟩ := ih hrest (huses.le_endIndex hi) e he
    exact ⟨hle.trans hlater, hend⟩

private theorem pairwise_of_leads {s u : ParseState} {deeds : List (Deed V)} (h : c.Leads s deeds u)
    (hi : s.cursor ≤ c.tokens.endIndex) :
    deeds.Pairwise fun d e => d.state.cursor ≤ e.state.cursor := by
  induction deeds generalizing s with
  | nil => exact .nil
  | cons d deeds ih =>
    have hcursor := cursor_of_leads h hi
    obtain ⟨rfl, hrest⟩ := h
    exact List.pairwise_cons.mpr ⟨fun e he => (hcursor e (List.mem_cons_of_mem d he)).1,
      ih hrest ((d.effect hi).usedUp.le_endIndex hi)⟩

private theorem inOrder_of_leads {s u : ParseState} {deeds : List (Deed V)} (h : c.Leads s deeds u)
    (hi : s.cursor ≤ c.tokens.endIndex)
    (habout : ∀ d ∈ deeds, ∀ x ∈ d.reports c, x.IsAbout (c.tokens.get d.state.cursor)) :
    c.tokens.InOrder (deeds.flatMap (·.reports c)) := by
  refine ⟨deeds.flatMap fun d => (d.reports c).map fun _ => d.state.cursor, ?_, ?_, ?_⟩
  · clear h
    induction deeds with
    | nil => exact .nil
    | cons d deeds ih =>
      rw [List.forall_mem_cons] at habout
      have hhere : List.Forall₂ (fun (x : Diagnostic) i => x.IsAbout (c.tokens.get i))
          (d.reports c) ((d.reports c).map fun _ => d.state.cursor) :=
        List.forall₂_map_right_iff.mpr (List.forall₂_same.mpr habout.1)
      exact List.rel_append hhere (ih habout.2)
  · refine List.pairwise_flatMap.mpr ⟨fun d _ => ?_, (pairwise_of_leads h hi).imp fun hle => ?_⟩
    · exact List.pairwise_map.mpr (List.pairwise_of_forall fun _ _ => Nat.le_refl _)
    · simp only [List.mem_map]
      rintro _ ⟨_, -, rfl⟩ _ ⟨_, -, rfl⟩
      exact hle
  · simp only [List.mem_flatMap, List.mem_map]
    rintro _ ⟨d, hd, _, -, rfl⟩
    exact (cursor_of_leads h hi d hd).2

/-- Inside of the start rule there are no reports but of repairs, about the next token. -/
theorem reports_of_meets {d : Deed V} (h : d.Meets c Inside c.IsNext)
    (hi : d.state.cursor ≤ c.tokens.endIndex) :
    ∀ x ∈ d.reports c, x.IsRepair ∧ c.registry.preferences.recoveryEnabled = true
      ∧ x.IsAbout (c.tokens.get d.state.cursor) := by
  have hdoes := (d.effect hi).does
  generalize d.reports c = reports, d.returned? c = t, (d.after c).cursor = j at hdoes
  cases hdoes with
  | goOn h => exact nofun
  | delete x step on recovery code about inside h =>
    exact List.forall_mem_singleton.mpr ⟨.inl recovery, on, about⟩
  | insert x step on recovery code about supplied =>
    exact List.forall_mem_singleton.mpr ⟨.inr (.inl recovery), on, about⟩
  | @resync x id f act inner on n recovery code about inside =>
    rw [Deed.Meets, act] at h
    have hnext : f.actual = c.tokens.get d.state.cursor := h.1
    exact List.forall_mem_singleton.mpr ⟨.inr (.inr ⟨n, recovery⟩), on, hnext ▸ about⟩
  | giveUp act outermost =>
    -- a rule that was called by another one is not the outermost
    rw [Deed.Meets, act] at h
    obtain ⟨-, -, rule, idx, name, rest, hinside, -⟩ := h
    exact absurd (List.eq_nil_of_length_eq_zero (by simp [leave, outermost])) hinside
  | leftOver x act code expected recovery about =>
    rw [Deed.Meets, act] at h
    exact h.elim

private theorem reports_of_ending {id : RuleId} {t : ParseState} {last : Act V}
    (hi : t.cursor ≤ c.tokens.endIndex) (hstack : t.stack = [id])
    (hlast : last = .leave ∨ ∃ f, last = .settle id f ∧ c.IsNext t f) :
    (Deed.reports c ⟨t, last⟩).length ≤ 1 ∧ ∀ x ∈ Deed.reports c ⟨t, last⟩,
      x.recovery = .none ∧ x.ruleStack = [c.registry.ruleName id]
        ∧ x.IsAbout (c.tokens.get t.cursor) := by
  have hdoes := (Deed.effect ⟨t, last⟩ hi).does
  generalize Deed.reports c ⟨t, last⟩ = reports, Deed.returned? c ⟨t, last⟩ = taken,
    (Deed.after c ⟨t, last⟩).cursor = j at hdoes
  have hstep : ¬∃ body, last = .step body := by
    rcases hlast with rfl | ⟨f, rfl, -⟩ <;> simp
  cases hdoes with
  | goOn h => exact ⟨Nat.zero_le _, nofun⟩
  | delete x step => exact absurd step hstep
  | insert x step => exact absurd step hstep
  | resync x act inner => exact absurd (by simp [hstack]) inner
  | giveUp act outermost =>
    rcases hlast with rfl | ⟨f, rfl, hnext⟩
    · cases act
    · obtain ⟨rfl, rfl⟩ := Act.settle.inj act
      have hnames : c.ruleNames t = [c.registry.ruleName id] := by simp [ruleNames, hstack]
      have habout : f.actual = c.tokens.get t.cursor := hnext
      exact ⟨Nat.le_refl _, List.forall_mem_singleton.mpr ⟨rfl, hnames,
        congrArg some habout, congrArg Token.span habout⟩⟩
  | leftOver x act => rcases hlast with rfl | ⟨f, rfl, -⟩ <;> cases act

private theorem reports_of_finish {u : ParseState} (hi : u.cursor ≤ c.tokens.endIndex) :
    (Deed.reports c ⟨u, .finish⟩).length ≤ 1 ∧ ∀ x ∈ Deed.reports c ⟨u, .finish⟩,
      x.recovery = .none ∧ x.code = Code.notAllInputParsed ∧ x.expected = [CategoryId.eof]
        ∧ x.IsAbout (c.tokens.get u.cursor) := by
  have hdoes := (Deed.effect ⟨u, .finish⟩ hi).does
  generalize Deed.reports c ⟨u, .finish⟩ = reports, Deed.returned? c ⟨u, .finish⟩ = taken,
    (Deed.after c ⟨u, .finish⟩).cursor = j at hdoes
  cases hdoes with
  | goOn h => exact ⟨Nat.zero_le _, nofun⟩
  | delete x step => obtain ⟨body, hbody⟩ := step; cases hbody
  | insert x step => obtain ⟨body, hbody⟩ := step; cases hbody
  | resync x act => cases act
  | giveUp act => cases act
  | leftOver x act code expected recovery about =>
    exact ⟨Nat.le_refl _, List.forall_mem_singleton.mpr ⟨recovery, code, expected, about⟩⟩

end ParseContext

/-! ## The order of a text -/

theorem TokenStream.ofList_append (tokens : List Token) {last : Token}
    (h : last.category = CategoryId.eof) :
    TokenStream.ofList (tokens ++ [last]) = ⟨tokens.toArray, last, h⟩ := by
  have hback : (tokens ++ [last]).toArray.back? = some last := by simp
  have hpop : (tokens ++ [last]).toArray.pop = tokens.toArray := by simp
  rw [ofList, ofArray]
  split
  · rename_i hnone
    cases hback.symm.trans hnone
  · rename_i t ht
    obtain rfl := Option.some.inj (hback.symm.trans ht)
    simp only [h, dif_pos, hpop]

private theorem TokenStream.offset_get_le {tokens : List Token} {last : Token}
    (h : last.category = CategoryId.eof)
    (hordered : (tokens ++ [last]).Pairwise fun x y => x.offset ≤ y.offset) {i j : Nat}
    (hij : i ≤ j) (hj : j ≤ tokens.length) :
    ((ofList (tokens ++ [last])).get i).offset ≤ ((ofList (tokens ++ [last])).get j).offset := by
  have hget : ∀ k ≤ tokens.length, (tokens ++ [last])[k]?
      = some ((ofList (tokens ++ [last])).get k) := by
    intro k hk
    rw [ofList_append tokens h, TokenStream.get, List.getElem?_append]
    rcases Nat.lt_or_eq_of_le hk with hlt | rfl
    · simp [hlt]
    · simp
  rcases Nat.lt_or_eq_of_le hij with hlt | rfl
  · obtain ⟨hi, hgeti⟩ := List.getElem?_eq_some_iff.mp (hget i (hij.trans hj))
    obtain ⟨hj', hgetj⟩ := List.getElem?_eq_some_iff.mp (hget j hj)
    rw [← hgeti, ← hgetj]
    exact List.pairwise_iff_getElem.mp hordered i j hi hj' hlt
  · exact Nat.le_refl _

private theorem Tokenization.Describes.pairwise_offset {o : Tokenization} {text : List Char}
    {segments : List Segment} {stop : Nat} {excess : Option Diagnostic}
    (h : o.Describes text segments stop excess) :
    o.tokens.Pairwise fun x y => x.offset ≤ y.offset := by
  refine h.ordered.imp_of_mem fun {x y} hx _ hxy => ?_
  obtain ⟨⟨i, j, hij, -, hspan⟩, -⟩ := h.standsIn x hx
  have hle : x.span.start.offset ≤ x.span.stop.offset := by
    rw [hspan]
    exact Position.offset_inText_le text hij
  exact hle.trans hxy

theorem TokenStream.InOrder.pairwise {tokens : TokenStream} {ds : List Diagnostic}
    (h : tokens.InOrder ds) (hget : ∀ i j, i ≤ j → j ≤ tokens.endIndex →
      (tokens.get i).offset ≤ (tokens.get j).offset) :
    ds.Pairwise fun x y => x.offset ≤ y.offset := by
  obtain ⟨indices, habout, hpairwise, hle⟩ := h
  have hoffsets : List.Forall₂ (· = ·) (ds.map (·.offset))
      (indices.map fun i => (tokens.get i).offset) := by
    rw [List.forall₂_map_left_iff, List.forall₂_map_right_iff]
    exact habout.imp fun x i hx => congrArg (·.start.offset) hx.2
  rw [List.forall₂_eq_eq_eq] at hoffsets
  have hpositions : (ds.map (·.offset)).Pairwise (· ≤ ·) := by
    rw [hoffsets, List.pairwise_map]
    exact hpairwise.imp_of_mem fun {i j} _ hj hij => hget i j hij (hle j hj)
  exact List.pairwise_map.mp hpositions

private theorem TokenStream.InOrder.pairwise_of_scan {tokens : TokenStream} {ds : List Diagnostic}
    (h : tokens.InOrder ds) {t : Tokenizer} {dispatch : Option DispatchTable} {text : List Char}
    (htokens : tokens = .ofList (t.scan dispatch text).2.tokens) :
    ds.Pairwise fun x y => x.offset ≤ y.offset := by
  obtain ⟨stop, beyond, -, hdescribes, -⟩ := t.describes_scan dispatch text
  have hordered := hdescribes.pairwise_offset
  rw [hdescribes.tokens] at hordered
  obtain rfl : tokens = .ofList (Segment.tokensIn .normal (t.scan dispatch text).1
      ++ [Token.eof (Position.inText text stop)]) :=
    htokens.trans (congrArg _ hdescribes.tokens)
  refine h.pairwise fun i j hij hj => offset_get_le (Token.category_eof _) hordered hij ?_
  rw [ofList_append _ (Token.category_eof _)] at hj
  simpa [endIndex] using hj

/-! ## The diagnostics of a parse -/

namespace ParseContext

variable {V : Type} {c : ParseContext V}

private theorem exists_reportShape (id : RuleId) (rule : Rule V) (s : ParseState) :
    ∃ repairs failures rest,
      (c.deeds id rule s).flatMap (·.reports c) = repairs ++ failures ++ rest
        ∧ ReportShape c.registry.preferences.recoveryEnabled (c.registry.ruleName id)
          repairs failures rest
        ∧ c.tokens.InOrder (repairs ++ failures ++ rest) := by
  have hleads := c.leads_deeds id rule s
  have hcursor := cursor_of_leads hleads (Nat.zero_le _)
  have hinside : Inside { c.startState rule s with stack := [id] } rule.body :=
    List.cons_ne_nil id []
  obtain ⟨inner, last, t, u, hdeeds, hinner, hstack, hlast⟩ :=
    invariant_inside.exists_deeds hinside
  rw [hdeeds] at hleads hcursor ⊢
  simp only [List.cons_append, List.forall_mem_cons, List.forall_mem_append] at hcursor
  obtain ⟨-, hcursors, ⟨-, hend⟩, ⟨-, hfinish⟩, -⟩ := hcursor
  have hrepairs := fun d hd => reports_of_meets (hinner d hd) (hcursors d hd).2
  obtain ⟨hone, hfailure⟩ := reports_of_ending hend hstack hlast
  obtain ⟨hone', hrest⟩ := reports_of_finish hfinish
  have hall : (⟨c.startState rule s, .enter id⟩ :: inner ++ [⟨t, last⟩, ⟨u, .finish⟩] :
      List (Deed V)).flatMap (·.reports c) = inner.flatMap (·.reports c)
        ++ Deed.reports c ⟨t, last⟩ ++ Deed.reports c ⟨u, .finish⟩ := by
    have hstart : Deed.reports c ⟨c.startState rule s, .enter id⟩ = [] := rfl
    simp [List.flatMap_cons, List.flatMap_append, hstart]
  refine ⟨_, _, _, hall, ⟨fun x hx => ?_, fun hne => ?_, fun x hx => ?_, hone, fun x hx => ?_,
    hone'⟩, ?_⟩
  · obtain ⟨d, hd, hx⟩ := List.mem_flatMap.mp hx
    exact (hrepairs d hd x hx).1
  · obtain ⟨x, hx⟩ := List.exists_mem_of_ne_nil _ hne
    obtain ⟨d, hd, hx⟩ := List.mem_flatMap.mp hx
    exact (hrepairs d hd x hx).2.1
  · exact ⟨(hfailure x hx).1, (hfailure x hx).2.1⟩
  · exact ⟨(hrest x hx).1, (hrest x hx).2.1, (hrest x hx).2.2.1⟩
  · rw [← hall]
    refine inOrder_of_leads hleads (Nat.zero_le _) ?_
    simp only [List.cons_append, List.forall_mem_cons, List.forall_mem_append]
    exact ⟨nofun, fun d hd x hx => (hrepairs d hd x hx).2.2, fun x hx => (hfailure x hx).2.2,
      fun x hx => (hrest x hx).2.2.2, nofun⟩

end ParseContext

namespace Session

variable {V : Type}

/-- The diagnostics of a parse are its repairs, then perhaps the failure of the start rule, and then
perhaps a report of tokens left over. They are about tokens in the order of the input, and so they
are in the order of the text if the tokens are those of a text. -/
theorem reports_in_order {s : Session V} (hr : s.context.registry.Built) {start : String}
    (hstart : start ∈ s.context.registry.names) :
    ∃ out t repairs failures rest, s.invoke start = (.ok out, t)
      ∧ out.syntactic = repairs ++ failures ++ rest
      ∧ ReportShape s.context.registry.preferences.recoveryEnabled start repairs failures rest
      ∧ s.context.tokens.InOrder out.syntactic
      ∧ ∀ (t : Tokenizer) (dispatch : Option DispatchTable) (text : List Char),
        s.context.tokens = .ofList (t.scan dispatch text).2.tokens →
          out.syntactic.Pairwise fun x y => x.offset ≤ y.offset := by
  obtain ⟨id, rule, hfind⟩ := hr.wellFormed.exists_find? hstart
  obtain ⟨hrule, hname⟩ := hr.wellFormed.find?_eq_some.mp hfind
  have hstartName : s.context.registry.ruleName id = start := by
    simp only [Registry.ruleName, hrule, Option.map_some, Option.getD_some, hname]
  obtain ⟨out, t, u, hinvoke, hleads, hkept, -, -⟩ := exists_leads hfind
  obtain ⟨-, hreported⟩ := ParseContext.usedUp_of_leads hleads (Nat.zero_le _)
  obtain ⟨repairs, failures, rest, hdeeds, hshape, hinOrder⟩ :=
    ParseContext.exists_reportShape (c := s.context) id rule s.state
  have hsyntactic : out.syntactic = (repairs ++ failures ++ rest).take
      s.context.registry.preferences.diagnosticLimit := by
    have hall : s.deeds start = s.context.deeds id rule s.state := by simp only [deeds, hfind]
    rw [hkept, hreported.kept, hall, hdeeds]
    rfl
  let limit := s.context.registry.preferences.diagnosticLimit
  refine ⟨out, t, repairs.take limit, failures.take (limit - repairs.length),
    rest.take (limit - (repairs ++ failures).length), hinvoke, ?_, ?_, ?_, fun t d text h => ?_⟩
  · rw [hsyntactic, List.take_append, List.take_append]
  · exact hstartName ▸ hshape.take _ _ _
  · exact hsyntactic ▸ hinOrder.take _
  · exact (hsyntactic ▸ hinOrder.take _).pairwise_of_scan h

set_option maxRecDepth 4000 in
/-- A comma that was deleted is the only thing that is reported. -/
theorem reports_in_order_noisySession : ∃ out t repairs failures rest,
    noisySession.invoke "list" = (.ok out, t) ∧ out.syntactic = repairs ++ failures ++ rest
      ∧ repairs.map (·.recovery) = [.deleted] ∧ failures = [] ∧ rest = [] := by
  have hstart : "list" ∈ noisySession.context.registry.names := by
    simp [noisySession, Registry.names, Registry.rules_itemList, Registry.listRule]
  obtain ⟨out, t, repairs, failures, rest, hinvoke, hsyntactic, hshape, -⟩ :=
    reports_in_order Registry.finalized_itemList.built hstart
  have hout : (noisySession.invoke "list").1.toOption.map (fun out =>
      out.syntactic.map (·.recovery)) = some [.deleted] := by cbv
  rw [hinvoke] at hout
  have hrecoveries : (repairs ++ failures ++ rest).map (·.recovery) = [.deleted] :=
    hsyntactic ▸ Option.some.inj hout
  have hmem : ∀ x ∈ repairs ++ failures ++ rest, x.recovery = .deleted := fun x hx =>
    List.mem_singleton.mp (hrecoveries ▸ List.mem_map_of_mem hx)
  have hfailures : failures = [] := List.eq_nil_iff_forall_not_mem.mpr fun x hx => by
    have hnone := (hshape.isFailure x hx).1
    rw [hmem x (by simp [hx])] at hnone
    cases hnone
  have hrest : rest = [] := List.eq_nil_iff_forall_not_mem.mpr fun x hx => by
    have hnone := (hshape.isRest x hx).1
    rw [hmem x (by simp [hx])] at hnone
    cases hnone
  refine ⟨out, t, repairs, failures, rest, hinvoke, hsyntactic, ?_, hfailures, hrest⟩
  simpa [hfailures, hrest] using hrecoveries

end Session

end PredictiveParsing
