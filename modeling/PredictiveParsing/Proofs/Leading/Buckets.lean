import Mathlib.Data.List.Nodup
import PredictiveParsing.Leading.Dispatch
import PredictiveParsing.Proofs.Leading.Set

/-!
# The entries of a dispatch table

The table of a model names for a character the concrete categories that have it among their leading
characters, each of them once and in the order of their registration.
-/

namespace PredictiveParsing.DispatchTable

variable {t : DispatchTable} {id : CategoryId} {c : Char} {set : LeadingSet}

theorem size_push {bucket : Nat} : (t.push id bucket).buckets.size = t.buckets.size := by
  simp [push]

theorem size_foldl_push (codes : List Nat) :
    (codes.foldl (fun t code => t.push id code) t).buckets.size = t.buckets.size := by
  induction codes generalizing t with
  | nil => rfl
  | cons code codes ih => rw [List.foldl_cons, ih, size_push]

private theorem size_enter : (t.enter id set).buckets.size = t.buckets.size := by
  unfold enter
  dsimp only
  split
  · rw [size_push, size_foldl_push]
  · rw [size_foldl_push]

theorem candidates_push {bucket : Nat} (h : bucket < t.buckets.size) :
    (t.push id bucket).candidates c =
      t.candidates c ++ if bucket = bucketOf c then [id] else [] := by
  unfold candidates push
  rw [Array.getElem?_modify]
  by_cases hb : bucket = bucketOf c
  · subst hb
    simp [h]
  · simp [hb]

private theorem candidates_foldl_push {codes : List Nat} (hn : codes.Nodup)
    (h : ∀ code ∈ codes, code < t.buckets.size) :
    (codes.foldl (fun t code => t.push id code) t).candidates c =
      t.candidates c ++ if bucketOf c ∈ codes then [id] else [] := by
  induction codes generalizing t with
  | nil => simp
  | cons code codes ih =>
    rw [List.nodup_cons] at hn
    rw [List.forall_mem_cons] at h
    rw [List.foldl_cons, ih hn.2 (by simpa [size_push] using h.2), candidates_push h.1,
      List.append_assoc]
    by_cases hc : code = bucketOf c
    · subst hc
      simp [hn.1]
    · simp [hc, Ne.symm hc]

private theorem candidates_enter (hsize : t.buckets.size = sharedBucket + 1) :
    (t.enter id set).candidates c = t.candidates c ++ if set.contains c then [id] else [] := by
  have hcodes : ∀ code ∈ set.asciiCodes, code < sharedBucket := fun code h =>
    BitVec.lt_of_getLsbD (LeadingSet.mem_asciiCodes.mp h)
  have hfold : (set.asciiCodes.foldl (fun t code => t.push id code) t).candidates c =
      t.candidates c ++ if bucketOf c ∈ set.asciiCodes then [id] else [] :=
    candidates_foldl_push (List.nodup_range.filter _) fun code h => by
      rw [hsize]
      exact Nat.lt_succ_of_lt (hcodes code h)
  have hshared : ∀ t' : DispatchTable, t'.buckets.size = t.buckets.size →
      sharedBucket < t'.buckets.size := fun t' h => by rw [h, hsize]; exact Nat.lt_succ_self _
  unfold enter
  dsimp only
  cases hc : Unicode.isAscii c with
  | true =>
    have hbucket : bucketOf c = c.toNat := by simp [bucketOf, hc]
    have hne : sharedBucket ≠ bucketOf c := by
      rw [hbucket]
      exact (Nat.ne_of_lt (Unicode.isAscii_iff.mp hc)).symm
    have hmem : bucketOf c ∈ set.asciiCodes ↔ set.contains c = true := by
      rw [hbucket, LeadingSet.mem_asciiCodes, LeadingSet.contains_ascii hc]
    split
    · rw [candidates_push (hshared _ (size_foldl_push _)), hfold, if_neg hne, List.append_nil]
      simp only [hmem]
    · rw [hfold]
      simp only [hmem]
  | false =>
    have hbucket : bucketOf c = sharedBucket := by simp [bucketOf, hc]
    have hno : bucketOf c ∉ set.asciiCodes := fun h =>
      Nat.lt_irrefl _ (hbucket ▸ hcodes _ h)
    rw [if_neg hno, List.append_nil] at hfold
    rw [LeadingSet.contains_nonAscii hc]
    split
    · rw [candidates_push (hshared _ (size_foldl_push _)), hfold, if_pos hbucket.symm]
    · rw [hfold, List.append_nil]

private theorem candidates_foldl_enter {sets : List (Category × Option LeadingSet)}
    (hsize : t.buckets.size = sharedBucket + 1) :
    (sets.foldl (fun t (k, s) => t.enter k.id (s.getD .empty)) t).candidates c =
      t.candidates c
        ++ (sets.filter fun (_, s) => (s.getD .empty).contains c).map fun (k, _) => k.id := by
  induction sets generalizing t with
  | nil => simp
  | cons p sets ih =>
    rw [List.foldl_cons, ih (size_enter.trans hsize), candidates_enter hsize, List.filter_cons]
    split
    · simp
    · simp

private theorem candidates_empty : empty.candidates c = [] := by
  have hlt : bucketOf c < sharedBucket + 1 := by
    unfold bucketOf
    split
    · rename_i hc
      exact Nat.lt_succ_of_lt (Unicode.isAscii_iff.mp hc)
    · exact Nat.lt_succ_self _
  simp [candidates, empty, hlt]

/-- A table can be built where the leading characters of all categories can be told. -/
theorem exists_build {m : TokenModel} (h : ∀ k ∈ m.concrete, k.leadingSet?.isSome = true) :
    ∃ t, build m = .ok t := by
  have hnone : (m.concrete.map fun k => (k, k.leadingSet?)).filterMap
      (fun x => if x.2.isSome then none else some x.1.name) = [] := by
    rw [List.filterMap_map, List.filterMap_eq_nil_iff]
    exact fun k hk => if_pos (h k hk)
  have hempty : List.isEmpty ([] : List String) = true := rfl
  exact ⟨_, if_pos (hnone ▸ hempty)⟩

/-- The categories that the table of a model names for a character. -/
theorem candidates_of_build {m : TokenModel} (h : build m = .ok t) :
    t.candidates c =
      (m.concrete.filter fun k => k.leadingSet?.any (·.contains c)).map (·.id) := by
  rw [build] at h
  dsimp only at h
  split at h
  · obtain rfl := Except.ok.inj h
    rw [candidates_foldl_enter (by simp [empty]), candidates_empty, List.nil_append,
      List.filter_map, List.map_map]
    have hany : ∀ k : Category, (k.leadingSet?.getD .empty).contains c =
        k.leadingSet?.any (·.contains c) := by
      intro k
      cases k.leadingSet? with
      | none => exact LeadingSet.not_contains_empty
      | some s => rfl
    simp only [Function.comp_def, hany]
  · cases h

theorem mem_candidates_of_build {m : TokenModel} {k : Category} (h : build m = .ok t)
    (hk : k ∈ m.concrete) (hset : k.leadingSet? = some set) (hc : set.contains c = true) :
    k.id ∈ t.candidates c := by
  rw [candidates_of_build h]
  exact List.mem_map_of_mem (List.mem_filter.mpr ⟨hk, by simp [hset, hc]⟩)

end PredictiveParsing.DispatchTable
