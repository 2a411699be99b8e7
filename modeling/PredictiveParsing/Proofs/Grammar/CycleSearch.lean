import Mathlib.Data.List.Chain
import Mathlib.Data.List.Nodup
import Mathlib.Data.List.Perm.Subperm
import Mathlib.Logic.Relation
import PredictiveParsing.Grammar.LeftCycle
import PredictiveParsing.Proofs.Outcome

/-!
# The search for a cycle

The search finds a cycle if there is one. The path that leads to a node is a walk that passes no
node twice, so that an edge back into it closes a cycle, and every walk from a node that was left
without a cycle comes to an end.
-/

namespace PredictiveParsing.LeftCycle

variable {next : Array (List RuleId)} {path visited visited' : List RuleId} {node : RuleId}

def Edge (next : Array (List RuleId)) (a b : RuleId) : Prop := b ∈ next[a]?.getD []

/-- Edges lead to nodes of the graph only. -/
def Closed (next : Array (List RuleId)) : Prop := ∀ a b, Edge next a b → b < next.size

/-- Every walk from the node comes to an end. -/
def Ends (next : Array (List RuleId)) (a : RuleId) : Prop := Acc (fun b a => Edge next a b) a

theorem Ends.not_transGen {a : RuleId} (h : Ends next a) :
    ¬Relation.TransGen (Edge next) a a := by
  induction h with
  | intro a _ ih =>
    intro hcycle
    obtain ⟨b, hab, hba⟩ := Relation.TransGen.head'_iff.mp hcycle
    exact ih b hab (.tail' hba hab)

/-- A cycle from its first node on, which follows on the last one. -/
def IsCycle (next : Array (List RuleId)) : List RuleId → Prop
  | [] => False
  | a :: others => (a :: others).Nodup ∧ (a :: (others ++ [a])).IsChain (Edge next)

/-- A walk through the graph that passes no node twice, its end first. -/
structure IsPath (next : Array (List RuleId)) (path : List RuleId) : Prop where
  walk : path.IsChain fun b a => Edge next a b
  nodup : path.Nodup
  lt : ∀ a ∈ path, a < next.size

private theorem IsPath.length_le (h : IsPath next path) : path.length ≤ next.size := by
  have hsub : path ⊆ List.range next.size := fun a ha => List.mem_range.mpr (h.lt a ha)
  simpa using (h.nodup.subperm hsub).length_le

theorem IsPath.cons {n : RuleId} (h : IsPath next (node :: path)) (hclosed : Closed next)
    (hedge : Edge next node n) (hn : n ∉ node :: path) : IsPath next (n :: node :: path) where
  walk := List.isChain_cons_cons.mpr ⟨hedge, h.walk⟩
  nodup := List.nodup_cons.mpr ⟨hn, h.nodup⟩
  lt := List.forall_mem_cons.mpr ⟨hclosed node n hedge, h.lt⟩

/-- An edge from the end of a path back into it closes a cycle. -/
theorem IsPath.isCycle {n : RuleId} (h : IsPath next (node :: path)) (hedge : Edge next node n)
    (hn : n ∈ node :: path) :
    IsCycle next (n :: ((node :: path).takeWhile (· != n)).reverse) := by
  obtain ⟨front, back, hsplit, hfront⟩ := List.eq_append_cons_of_mem hn
  have htake : (node :: path).takeWhile (· != n) = front := by
    have hne : ∀ a ∈ front, (a != n) = true := by
      intro a ha
      simpa using fun h : a = n => hfront (h ▸ ha)
    rw [hsplit, List.takeWhile_append_of_pos hne]
    simp
  have hwalk : (n :: (front ++ [n])).IsChain fun b a => Edge next a b := by
    have hall : (n :: node :: path).IsChain fun b a => Edge next a b :=
      List.isChain_cons_cons.mpr ⟨hedge, h.walk⟩
    rw [hsplit] at hall
    have hpre : n :: (front ++ [n]) <+: n :: (front ++ n :: back) :=
      ⟨back, by simp⟩
    exact hall.prefix hpre
  rw [htake]
  constructor
  · have hnodup := h.nodup
    rw [hsplit, List.nodup_append] at hnodup
    rw [List.nodup_cons, List.mem_reverse, List.nodup_reverse]
    exact ⟨hfront, hnodup.1⟩
  · have := List.isChain_reverse.mpr hwalk
    simpa using this

/-- What is known of the nodes that were visited: they lie on the path or were left. -/
def Left (next : Array (List RuleId)) (path visited : List RuleId) : Prop :=
  ∀ a ∈ visited, a ∈ path ∨ Ends next a

private theorem ends_of_searchFrom {fuel : Nat} (hclosed : Closed next)
    (hpath : IsPath next (node :: path)) (hfuel : next.size < fuel + path.length)
    (hleft : Left next path visited) (h : searchFrom next fuel path visited node = .ok visited') :
    Left next path visited' ∧ Ends next node := by
  induction fuel generalizing path visited visited' node with
  | zero =>
    have hle := hpath.length_le
    rw [List.length_cons] at hle
    omega
  | succ fuel ih =>
    rw [searchFrom] at h
    have hstart : Left next (node :: path) (node :: visited) :=
      List.forall_mem_cons.mpr ⟨.inl List.mem_cons_self,
        fun a ha => (hleft a ha).imp_left (List.mem_cons_of_mem node)⟩
    have hall : Left next (node :: path) visited' ∧ ∀ n ∈ next[node]?.getD [], Ends next n := by
      refine Outcome.forall_of_foldlM_eq_ok (fun n hn seen seen' hseen hstep => ?_) hstart h
      split at hstep
      · cases hstep
      · rename_i hnew
        rw [List.contains_iff_mem] at hnew
        split at hstep
        · rename_i hvisited
          obtain rfl := Except.ok.inj hstep
          rw [List.contains_iff_mem] at hvisited
          exact ⟨hseen, (hseen n hvisited).resolve_left hnew⟩
        · exact ih (hpath.cons hclosed hn hnew) (by rw [List.length_cons]; omega) hseen hstep
    have hnode : Ends next node := Acc.intro node hall.2
    refine ⟨fun a ha => ?_, hnode⟩
    rcases hall.1 a ha with ha | ha
    · rcases List.mem_cons.mp ha with rfl | ha
      · exact .inr hnode
      · exact .inl ha
    · exact .inr ha

private theorem isCycle_of_searchFrom {fuel : Nat} {cycle : List RuleId} (hclosed : Closed next)
    (hpath : IsPath next (node :: path))
    (h : searchFrom next fuel path visited node = .error cycle) : IsCycle next cycle := by
  induction fuel generalizing path visited node with
  | zero => cases h
  | succ fuel ih =>
    rw [searchFrom] at h
    obtain ⟨n, hn, seen, hstep⟩ := Outcome.exists_of_foldlM_eq_error h
    split at hstep
    · rename_i hback
      rw [← Except.error.inj hstep]
      exact hpath.isCycle hn (List.contains_iff_mem.mp hback)
    · rename_i hnew
      split at hstep
      · cases hstep
      · exact ih (hpath.cons hclosed hn (by simpa using hnew)) hstep

theorem isPath_singleton (h : node < next.size) : IsPath next [node] where
  walk := List.isChain_singleton node
  nodup := List.nodup_singleton node
  lt := by simpa using h

/-- Where no cycle is found every walk comes to an end. -/
theorem ends_of_search (hclosed : Closed next) (h : search next = .ok visited) (a : RuleId) :
    Ends next a := by
  have hall : ∀ a ∈ List.range next.size, Ends next a := by
    have hstart : Left next [] [] := fun a ha => absurd ha List.not_mem_nil
    refine (Outcome.forall_of_foldlM_eq_ok (fun n hn seen seen' hseen hstep => ?_) hstart h).2
    split at hstep
    · rename_i hvisited
      obtain rfl := Except.ok.inj hstep
      rw [List.contains_iff_mem] at hvisited
      exact ⟨hseen, (hseen n hvisited).resolve_left List.not_mem_nil⟩
    · exact ends_of_searchFrom hclosed (isPath_singleton (List.mem_range.mp hn)) (by simp) hseen
        hstep
  refine Acc.intro a fun b hb => hall b (List.mem_range.mpr (hclosed a b hb))

theorem isCycle_of_search {cycle : List RuleId} (hclosed : Closed next)
    (h : search next = .error cycle) : IsCycle next cycle := by
  obtain ⟨n, hn, seen, hstep⟩ := Outcome.exists_of_foldlM_eq_error h
  split at hstep
  · cases hstep
  · exact isCycle_of_searchFrom hclosed (isPath_singleton (List.mem_range.mp hn)) hstep

end PredictiveParsing.LeftCycle
