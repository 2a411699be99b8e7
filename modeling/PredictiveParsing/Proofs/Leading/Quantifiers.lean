import PredictiveParsing.Proofs.Leading.Cover
import PredictiveParsing.Proofs.Leading.Escapes

/-!
# Quantifiers

What the scan of a pattern makes of a quantifier, compared with the repetition that is read. The
scan skips one more sign behind a quantifier; to the pattern this is a question mark that makes the
repetition lazy, or a plus sign that repeats the repetition.
-/

namespace PredictiveParsing.Leading

open Regex (Piece Reading)

/-! ## Counts -/

section

variable {cs rest : List Char}

private theorem takeWhile_isDigit (cs : List Char) :
    (cs ++ [')']).takeWhile (·.isDigit) = cs.takeWhile (·.isDigit) := by
  induction cs with
  | nil => rfl
  | cons c cs ih =>
    rw [List.cons_append, List.takeWhile_cons, List.takeWhile_cons, ih]

private theorem of_dropBlank (cs : List Char) :
    ∃ front, cs = front ++ Regex.dropBlank cs ∧ '\x7d' ∉ front := by
  refine ⟨cs.takeWhile Unicode.isBlank, ?_, ?_⟩
  · rw [Regex.dropBlank, List.takeWhile_append_dropWhile]
  · intro hmem
    have hall := List.all_eq_true.mp List.all_takeWhile '\x7d' hmem
    exact absurd hall (by decide)

private theorem readDigits_eq (value n fuel : Nat) (hfuel : cs.length ≤ fuel) :
    ∃ v, valueOf? 10 value (cs.takeWhile (·.isDigit)) = some v ∧
      Regex.readDigits .none value n fuel cs =
        (v, n + (cs.takeWhile (·.isDigit)).length, cs.dropWhile (·.isDigit)) := by
  induction cs generalizing value n fuel with
  | nil => cases fuel <;> exact ⟨value, rfl, rfl⟩
  | cons c cs ih =>
    cases fuel with
    | zero => simp at hfuel
    | succ fuel =>
      cases hc : c.isDigit with
      | true =>
        have hvalue : hexValue? c = some (c.toNat - '0'.toNat) := by simp [hexValue?, hc]
        obtain ⟨v, hv, heq⟩ := ih (value * 10 + (c.toNat - '0'.toNat)) (n + 1) fuel
          (Nat.le_of_succ_le_succ hfuel)
        refine ⟨v, ?_, ?_⟩
        · rw [List.takeWhile_cons_of_pos hc, valueOf?_cons, hvalue]
          exact hv
        · rw [Regex.readDigits, if_pos hc, Regex.skip_none, heq, List.takeWhile_cons_of_pos hc,
            List.dropWhile_cons_of_pos hc, List.length_cons, Nat.add_assoc, Nat.add_comm 1]
      | false =>
        have hc : ¬ c.isDigit = true := by simp [hc]
        refine ⟨value, ?_, ?_⟩
        · rw [List.takeWhile_cons_of_neg hc]
          rfl
        · rw [Regex.readDigits, if_neg hc, List.takeWhile_cons_of_neg hc,
            List.dropWhile_cons_of_neg hc]
          rfl

theorem readCount_eq (cs : List Char) :
    ∃ v, valueOf? 10 0 ((Regex.dropBlank cs).takeWhile (·.isDigit)) = some v ∧
      Regex.readCount .none cs =
        if ((Regex.dropBlank cs).takeWhile (·.isDigit)).length = 0 then
          .ok (none, Regex.dropBlank ((Regex.dropBlank cs).dropWhile (·.isDigit)))
        else if v < 0x100000000 then
          .ok (some v, Regex.dropBlank ((Regex.dropBlank cs).dropWhile (·.isDigit)))
        else .error .badCount := by
  have hfuel : (Regex.dropBlank cs).length ≤ cs.length := (List.dropWhile_sublist _).length_le
  obtain ⟨v, hv, hdigits⟩ := readDigits_eq 0 0 cs.length hfuel
  refine ⟨v, hv, ?_⟩
  rw [Regex.readCount, hdigits]
  simp only [Nat.zero_add]

private theorem of_readCount {count : Option Nat}
    (h : Regex.readCount .none cs = .ok (count, rest)) :
    ∃ front, cs = front ++ rest ∧ '\x7d' ∉ front := by
  obtain ⟨v, _, heq⟩ := readCount_eq cs
  have hrest : rest = Regex.dropBlank ((Regex.dropBlank cs).dropWhile (·.isDigit)) := by
    rw [heq] at h
    split at h
    · exact (Prod.mk.inj (Except.ok.inj h)).2.symm
    · split at h
      · exact (Prod.mk.inj (Except.ok.inj h)).2.symm
      · cases h
  obtain ⟨blank, hblank, hnot⟩ := of_dropBlank cs
  obtain ⟨blank', hblank', hnot'⟩ := of_dropBlank ((Regex.dropBlank cs).dropWhile (·.isDigit))
  refine ⟨blank ++ ((Regex.dropBlank cs).takeWhile (·.isDigit) ++ blank'), ?_, ?_⟩
  · rw [hrest, List.append_assoc, List.append_assoc, ← hblank', List.takeWhile_append_dropWhile]
    exact hblank
  · intro hmem
    rcases List.mem_append.mp hmem with hmem | hmem
    · exact hnot hmem
    · rcases List.mem_append.mp hmem with hmem | hmem
      · exact absurd (List.all_eq_true.mp List.all_takeWhile '\x7d' hmem) (by decide)
      · exact hnot' hmem

private theorem dropBlank_digit {c : Char} (hc : c.isDigit = true) :
    Regex.dropBlank (c :: cs) = c :: cs := by
  have hle := (Char.isDigit_iff_toNat.mp hc).2
  have hascii : Unicode.isAscii c = true :=
    Unicode.isAscii_iff.mpr (Nat.lt_of_le_of_lt hle (by decide))
  exact List.dropWhile_cons_of_neg (Unicode.forall_ascii
    (P := fun c => c.isDigit = true → ¬ Unicode.isBlank c = true) (by decide) hascii hc)

private theorem valueOf?_of_readCount {count : Option Nat} {c : Char} (hc : c.isDigit = true)
    (h : Regex.readCount .none (c :: cs) = .ok (count, rest)) :
    ∃ n, count = some n ∧ valueOf? 10 0 ((c :: cs).takeWhile (·.isDigit)) = some n := by
  obtain ⟨v, hv, heq⟩ := readCount_eq (c :: cs)
  rw [dropBlank_digit hc] at hv heq
  rw [heq, List.takeWhile_cons_of_pos hc, List.length_cons, if_neg (Nat.succ_ne_zero _)] at h
  split at h
  · obtain ⟨rfl, rfl⟩ := Prod.mk.inj (Except.ok.inj h)
    exact ⟨v, rfl, hv⟩
  · cases h

private theorem eq_of_readBounds {least : Nat} {most : Option Nat}
    (bounds : Option (Nat × Option Nat)) (text : List Char)
    (h : (match bounds, text with
      | some (n, m), '\x7d' :: rest =>
        if m.all (n ≤ ·) then Except.ok ((n, m), rest) else .error Regex.PatternError.badCount
      | _, _ => .error Regex.PatternError.badCount) =
        (.ok ((least, most), rest) : Except Regex.PatternError (Rest (Nat × Option Nat)))) :
    bounds = some (least, most) ∧ text = '\x7d' :: rest := by
  split at h
  · split at h
    · obtain ⟨heq, rfl⟩ := Prod.mk.inj (Except.ok.inj h)
      rw [heq]
      exact ⟨rfl, rfl⟩
    · cases h
  · cases h

/-- The bounds of a counted repetition end with the next closing brace, and the first of them is the
number that the first digits mean. -/
theorem of_readBounds {c : Char} {least : Nat} {most : Option Nat} (hc : c.isDigit = true)
    (h : Regex.readBounds .none (c :: cs) = .ok ((least, most), rest)) :
    valueOf? 10 0 ((c :: cs).takeWhile (·.isDigit)) = some least ∧
      ∃ front, c :: cs = front ++ '\x7d' :: rest ∧ '\x7d' ∉ front := by
  unfold Regex.readBounds at h
  dsimp only [Regex.skip_none] at h
  rw [Outcome.unless_eq_ok] at h
  obtain ⟨⟨count, rest₁⟩, hcount, h⟩ := Outcome.bind_eq_ok.mp h.2
  obtain ⟨n, rfl, hn⟩ := valueOf?_of_readCount hc hcount
  obtain ⟨front, hfront, hnot⟩ := of_readCount hcount
  dsimp only at h
  split at h
  · rename_i rest₂
    split at h
    · obtain ⟨_, heq, h⟩ := Outcome.bind_eq_ok.mp h
      obtain rfl := Except.ok.inj heq
      obtain ⟨hbounds, htext⟩ := eq_of_readBounds (some (n, none)) ('\x7d' :: _) h
      obtain ⟨rfl, rfl⟩ := Prod.mk.inj (Option.some.inj hbounds)
      obtain rfl := (List.cons.inj htext).2
      exact ⟨hn, front ++ [','], by simp [hfront], by simp [hnot]⟩
    · obtain ⟨⟨count', rest₃⟩, hcount', h⟩ := Outcome.bind_eq_ok.mp h
      obtain ⟨front', hfront', hnot'⟩ := of_readCount hcount'
      dsimp only at h
      split at h
      · rename_i n' m heq
        obtain rfl := Option.some.inj heq
        obtain ⟨_, heq, h⟩ := Outcome.bind_eq_ok.mp h
        obtain rfl := Except.ok.inj heq
        obtain ⟨hbounds, htext⟩ := eq_of_readBounds (some (n, some m)) rest₃ h
        obtain ⟨rfl, rfl⟩ := Prod.mk.inj (Option.some.inj hbounds)
        rw [hfront', htext] at hfront
        exact ⟨hn, front ++ ',' :: front', by simp [hfront], by simp [hnot, hnot']⟩
      · cases h
  · obtain ⟨_, heq, h⟩ := Outcome.bind_eq_ok.mp h
    obtain rfl := Except.ok.inj heq
    obtain ⟨hbounds, htext⟩ := eq_of_readBounds (some (n, some n)) rest₁ h
    obtain ⟨rfl, rfl⟩ := Prod.mk.inj (Option.some.inj hbounds)
    rw [htext] at hfront
    exact ⟨hn, front, hfront, hnot⟩

end

/-! ## Repetitions -/

variable [Regex.Dialect]

def Reads (r : Reading) (q : Piece) : Prop := ∃ fuel, Reading.run fuel r = .ok q

section

variable {cs rest : List Char} {branches ps : List Piece} {p q : Piece}
  {opened : List Regex.Opened} {names : List (List Char)}

theorem Reads.step {c : Char} (h : Reads ⟨c :: cs, .none, branches, ps, opened, names⟩ q) :
    ∃ r, Reading.step ⟨c :: cs, .none, branches, ps, opened, names⟩ c cs = .ok r ∧ Reads r q := by
  obtain ⟨fuel, h⟩ := h
  cases fuel with
  | zero => cases h
  | succ fuel =>
    obtain ⟨r, hr, h⟩ := Outcome.bind_eq_ok.mp h
    exact ⟨r, hr, fuel, h⟩

theorem repeatLast_ok {r : Reading} {greedy : Bool} {least : Nat} {most : Option Nat}
    (h : Reading.repeatLast ⟨cs, .none, branches, p :: ps, opened, names⟩ greedy least most rest =
      .ok r) :
    ∃ p' g, p'.regex = p.regex.repeated g least most ∧
      r = ⟨rest, .none, branches, p' :: ps, opened, names⟩ := by
  rw [Reading.repeatLast] at h
  dsimp only at h
  rw [Outcome.unless_eq_ok, Outcome.unless_eq_ok] at h
  exact ⟨_, _, rfl, (Except.ok.inj h.2.2).symm⟩

omit [Regex.Dialect] in
private theorem readGreed_eq (h : cs.head? ≠ some '?') :
    Regex.readGreed (cs ++ [')']) = (true, cs ++ [')']) := by
  cases cs with
  | nil => rfl
  | cons c cs =>
    have hc : c ≠ '?' := fun heq => h (heq ▸ rfl)
    simp [Regex.readGreed, hc]

private theorem mode_agrees (hnext : (skipMode cs).head? ≠ some '?')
    (h : Reads ⟨(Regex.readGreed (cs ++ [')'])).2, .none, branches, p :: ps, opened, names⟩ q) :
    ∃ p', (∀ x : First, x.Covers p.regex → x.Covers p'.regex) ∧
      Reads ⟨skipMode cs ++ [')'], .none, branches, p' :: ps, opened, names⟩ q := by
  unfold skipMode at hnext ⊢
  split at hnext
  · exact ⟨p, fun x hx => hx, h⟩
  · rename_i more
    obtain ⟨r, hr, h⟩ := h.step
    have hr : Reading.repeatLast ⟨'+' :: more ++ [')'], .none, branches, p :: ps, opened, names⟩
      (Regex.readGreed (more ++ [')'])).1 1 none (Regex.readGreed (more ++ [')'])).2 = .ok r := hr
    obtain ⟨p', g, hregex, rfl⟩ := repeatLast_ok hr
    rw [readGreed_eq hnext] at h
    refine ⟨p', fun x hx => ?_, h⟩
    rw [hregex]
    exact hx.repeated_succ
  · rw [readGreed_eq hnext] at h
    exact ⟨p, fun x hx => hx, h⟩

/-- What the scan makes of a quantifier covers the repetition that is read. -/
theorem quantifier_agrees {zero : Bool} (hscan : scanQuantifier cs = some (zero, rest))
    (hnext : rest.head? ≠ some '?')
    (h : Reads ⟨cs ++ [')'], .none, branches, p :: ps, opened, names⟩ q) :
    ∃ p', (∀ x : First, x.Covers p.regex →
        (if zero then { x with nullable := true } else x).Covers p'.regex) ∧
      Reads ⟨rest ++ [')'], .none, branches, p' :: ps, opened, names⟩ q := by
  have hboth : ∀ {more : List Char} {r : Reading} {greedy : Bool} {least : Nat} {most : Option Nat},
      (least = 0 → zero = true) → (skipMode more).head? ≠ some '?' →
      Reading.repeatLast ⟨cs ++ [')'], .none, branches, p :: ps, opened, names⟩ greedy least most
        (Regex.readGreed (more ++ [')'])).2 = .ok r → Reads r q →
      ∃ p', (∀ x : First, x.Covers p.regex →
          (if zero then { x with nullable := true } else x).Covers p'.regex) ∧
        Reads ⟨skipMode more ++ [')'], .none, branches, p' :: ps, opened, names⟩ q := by
    intro more r greedy least most hzero hnext hr h
    obtain ⟨p₁, g, hregex, rfl⟩ := repeatLast_ok hr
    obtain ⟨p₂, hcovers, h⟩ := mode_agrees hnext h
    refine ⟨p₂, fun x hx => hcovers _ ?_, h⟩
    rw [hregex]
    exact hx.repeated hzero
  simp only [scanQuantifier] at hscan
  split at hscan
  · obtain ⟨rfl, rfl⟩ := Prod.mk.inj (Option.some.inj hscan)
    obtain ⟨r, hr, h⟩ := h.step
    exact hboth (fun _ => rfl) hnext hr h
  · obtain ⟨rfl, rfl⟩ := Prod.mk.inj (Option.some.inj hscan)
    obtain ⟨r, hr, h⟩ := h.step
    exact hboth (fun _ => rfl) hnext hr h
  · obtain ⟨rfl, rfl⟩ := Prod.mk.inj (Option.some.inj hscan)
    obtain ⟨r, hr, h⟩ := h.step
    exact hboth (fun h => by cases h) hnext hr h
  · rename_i more
    obtain ⟨d, more', rfl, hd⟩ := exists_digit_of_scanQuantifier (Option.isSome_of_eq_some hscan)
    obtain ⟨⟨front, after⟩, hup, hscan⟩ := Option.bind_eq_some_iff.mp hscan
    obtain ⟨heq, hnot⟩ := of_upTo? hup
    dsimp only at hscan
    split at hscan
    · cases hscan
    · obtain ⟨least, hleast, hscan⟩ := Option.bind_eq_some_iff.mp hscan
      obtain ⟨rfl, rfl⟩ := Prod.mk.inj (Option.some.inj hscan)
      obtain ⟨r, hr, h⟩ := h.step
      have hr : (if (p :: ps).head?.any (·.repeatable) then
          Regex.readBounds .none (d :: (more' ++ [')'])) >>= fun bounds =>
            Reading.repeatLast
              ⟨'\x7b' :: d :: more' ++ [')'], .none, branches, p :: ps, opened, names⟩
              (Regex.readGreed bounds.2).1 bounds.1.1 bounds.1.2 (Regex.readGreed bounds.2).2
        else .error .nothingToRepeat) = .ok r := hr
      split at hr
      · obtain ⟨⟨⟨n, most⟩, after'⟩, hbounds, hr⟩ := Outcome.bind_eq_ok.mp hr
        obtain ⟨hn, front', heq', hnot'⟩ := of_readBounds hd hbounds
        rw [← List.cons_append, takeWhile_isDigit] at hn
        obtain rfl := Option.some.inj (hn.symm.trans (valueOf?_of_digitsValue? hleast))
        rw [← List.cons_append, heq, List.append_assoc] at heq'
        obtain ⟨rfl, rfl⟩ := upTo_unique hnot hnot' heq'
        exact hboth (fun h : n = 0 => by simp [h]) hnext hr h
      · cases hr
  · obtain ⟨rfl, rfl⟩ := Prod.mk.inj (Option.some.inj hscan)
    exact ⟨p, fun x hx => hx, h⟩

end

end PredictiveParsing.Leading
