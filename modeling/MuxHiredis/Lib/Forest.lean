import Mathlib.Algebra.BigOperators.Group.List.Basic
import Mathlib.Tactic

/-!
# Growing forests

A forest whose nodes are numbered in the order of their creation is given by
the children of each node.  A walk from a root visits the children of a node
before the node.  A node that is created as a new child is visited as often as
its parent, and the visits to the others stay what they are.
-/

namespace Forest

/-- The walk from `p`, `depth` levels deep. -/
def walk (children : ℕ → List ℕ) : ℕ → ℕ → List ℕ
  | 0, _ => []
  | depth + 1, p => (children p).flatMap (walk children depth) ++ [p]

/-- Every child is younger than its parent, and one of `n` nodes. -/
def Ordered (children : ℕ → List ℕ) (n : ℕ) : Prop :=
  ∀ p, ∀ q ∈ children p, p < q ∧ q < n

variable {children children' : ℕ → List ℕ} {n a : ℕ}

theorem le_of_mem_walk (h : Ordered children n) {depth p x : ℕ}
    (hx : x ∈ walk children depth p) : p ≤ x := by
  induction depth generalizing p with
  | zero => simp [walk] at hx
  | succ depth ih =>
      rw [walk, List.mem_append, List.mem_flatMap, List.mem_singleton] at hx
      rcases hx with ⟨q, hq, hx⟩ | hx
      · exact (h p q hq).1.le.trans (ih hx)
      · exact hx.ge

theorem lt_of_mem_walk (h : Ordered children n) {depth p x : ℕ} (hp : p < n)
    (hx : x ∈ walk children depth p) : x < n := by
  induction depth generalizing p with
  | zero => simp [walk] at hx
  | succ depth ih =>
      rw [walk, List.mem_append, List.mem_flatMap, List.mem_singleton] at hx
      rcases hx with ⟨q, hq, hx⟩ | hx
      · exact ih (h p q hq).2 hx
      · exact hx ▸ hp

/-- Levels below the youngest node are empty. -/
theorem walk_depth (h : Ordered children n) {depth p : ℕ} (depth' : ℕ) (hp : p < n)
    (hd : n ≤ p + depth) (hd' : n ≤ p + depth') :
    walk children depth p = walk children depth' p := by
  induction depth generalizing depth' p with
  | zero => omega
  | succ depth ih =>
      cases depth' with
      | zero => omega
      | succ depth' =>
          have hsub : ∀ q ∈ children p, walk children depth q = walk children depth' q := by
            intro q hq
            obtain ⟨hpq, hqn⟩ := h p q hq
            exact ih depth' hqn (by omega) (by omega)
          rw [walk, walk, List.flatMap_congr hsub]

theorem walk_leaf {depth p : ℕ} (hp : children p = []) :
    walk children (depth + 1) p = [p] := by
  simp [walk, hp]

/-- The forest after the node `n` became a child of `a`. -/
structure Attached (children children' : ℕ → List ℕ) (n a : ℕ) : Prop where
  parent : (children' a).Perm (n :: children a)
  leaf : children' n = []
  others : ∀ p, p ≠ a → p ≠ n → children' p = children p

theorem Attached.count_walk (hatt : Attached children children' n a) (h : Ordered children n)
    {depth r : ℕ} (hr : r < n) (hd : n < r + depth) (x : ℕ) :
    (walk children' depth r).count x =
      (walk children depth r).count x +
        if x = n then (walk children depth r).count a else 0 := by
  induction depth generalizing r with
  | zero => omega
  | succ depth ih =>
      have hsub : ∀ q ∈ children r, (walk children' depth q).count x =
          (walk children depth q).count x +
            if x = n then (walk children depth q).count a else 0 := by
        intro q hq
        obtain ⟨hrq, hqn⟩ := h r q hq
        exact ih hqn (by omega)
      have hsum : ((children r).map (List.count x ∘ walk children' depth)).sum =
          ((children r).map (List.count x ∘ walk children depth)).sum +
            if x = n then ((children r).map (List.count a ∘ walk children depth)).sum
            else 0 := by
        have hmap := congrArg List.sum (List.map_congr_left hsub)
        rw [List.sum_map_add] at hmap
        refine hmap.trans (congrArg _ ?_)
        split
        · rfl
        · simp
      simp only [walk, List.count_append, List.count_flatMap]
      by_cases hra : r = a
      · subst hra
        -- The new child adds one visit of its own.
        have hnew : ((children' r).map (List.count x ∘ walk children' depth)).sum =
            (if x = n then 1 else 0) +
              ((children r).map (List.count x ∘ walk children' depth)).sum := by
          obtain ⟨d, rfl⟩ : ∃ d, depth = d + 1 := ⟨depth - 1, by omega⟩
          rw [(hatt.parent.map _).sum_eq, List.map_cons, List.sum_cons, Function.comp_apply,
            walk_leaf hatt.leaf]
          by_cases hx : x = n
          · rw [hx, List.count_singleton_self, if_pos rfl]
          · rw [if_neg hx, List.count_eq_zero_of_not_mem (by simpa using hx)]
        rw [hnew, hsum]
        by_cases hx : x = n
        · simp only [if_pos hx, List.count_singleton_self]
          omega
        · simp only [if_neg hx]
          omega
      · rw [hatt.others r hra (by omega), hsum]
        have hself : List.count a [r] = 0 := by simp [hra]
        split <;> omega

end Forest
