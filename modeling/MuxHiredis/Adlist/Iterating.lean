import MuxHiredis.Adlist.Nodes

/-!
# Going through a list

`listSearchKey`, `listIndex`, and a loop with `listNext` that removes some of the nodes
it comes to.
-/

namespace MuxHiredis

namespace Adlist

open Doubly (first last addrs Seg)

variable {V : Type*} {h : Heap V} {c : Contents V} {L R l : List (ℕ × V)}

/-- A loop over `listNext`, which may remove the node that it returned. -/
def sweep (remove : ℕ → V → Bool) :
    ℕ → Heap V → AdList V → ListIter → List ℕ → Option (Heap V × AdList V × List ℕ)
  | 0, _, _, _, _ => none
  | fuel + 1, h, list, iter, visited =>
      (listNext h iter).bind fun r ↦
        match r.1 with
        | none => some (h, list, visited)
        | some a =>
            (h.nodes a).bind fun c ↦
              if remove a c.value then
                (listDelNode h list a).bind fun s ↦
                  sweep remove fuel s.1 s.2 r.2 (visited ++ [a])
              else sweep remove fuel h list r.2 (visited ++ [a])

theorem listNext_tail {x : ℕ × V} (hheld : Held h (L ++ x :: R)) :
    listNext h ⟨some x.1, .tail⟩ = some (some x.1, ⟨last none L, .tail⟩) ∧
      h.nodes x.1 = some ⟨last none L, first R none, x.2⟩ := by
  have hcell := Seg.cell (a := x.1) (v := x.2) hheld.seg
  refine ⟨?_, hcell⟩
  rw [listNext]
  simp only [hcell, Option.map_some, reduceCtorEq, if_false]

theorem searchLoop_spec [DecidableEq V] (m : Methods V) (key : V) (done : List (ℕ × V))
    {rest : List (ℕ × V)} (hheld : Held h (done ++ rest)) {fuel : ℕ} (hfuel : rest.length < fuel) :
    searchLoop m key fuel h ⟨first rest none, .head⟩ =
      some ((rest.find? fun x ↦ m.keyMatches key x.2).map Prod.fst) := by
  induction rest generalizing done fuel with
  | nil =>
      obtain ⟨fuel, rfl⟩ := Nat.exists_eq_add_one_of_ne_zero (Nat.ne_of_gt hfuel)
      rfl
  | cons x rest ih =>
      obtain ⟨fuel, rfl⟩ := Nat.exists_eq_add_one_of_ne_zero
        (Nat.ne_of_gt (Nat.zero_lt_of_lt hfuel))
      obtain ⟨hnext, p, hcell⟩ := listNext_head hheld
      rw [searchLoop, Doubly.first_cons, hnext, Option.bind_some]
      simp only [hcell, Option.bind_some, List.find?_cons]
      cases hmatches : m.keyMatches key x.2 with
      | true => rfl
      | false =>
          rw [List.append_cons] at hheld
          exact ih (done ++ [x]) hheld (Nat.lt_of_succ_lt_succ hfuel)

/-- The first node from the head whose value matches the key. -/
theorem listSearchKey_spec [DecidableEq V] (hheld : Held h c.nodes) (key : V) :
    listSearchKey h c.header key =
      some ((c.nodes.find? fun x ↦ c.toMethods.keyMatches key x.2).map Prod.fst) :=
  searchLoop_spec c.toMethods key [] hheld (Nat.lt_succ_self _)

theorem indexLoop_head (done : List (ℕ × V)) {rest : List (ℕ × V)}
    (hheld : Held h (done ++ rest)) (n : ℕ) :
    indexLoop h .head n (first rest none) = some ((rest[n]?).map Prod.fst) := by
  induction n generalizing rest done with
  | zero => cases rest <;> rfl
  | succ n ih =>
      cases rest with
      | nil => rfl
      | cons x rest =>
          obtain ⟨-, p, hcell⟩ := listNext_head hheld
          rw [Doubly.first_cons, indexLoop, hcell, Option.bind_some, List.getElem?_cons_succ]
          rw [List.append_cons] at hheld
          exact ih (done ++ [x]) hheld

theorem indexLoop_tail {rest : List (ℕ × V)} (done : List (ℕ × V))
    (hheld : Held h (rest ++ done)) (n : ℕ) :
    indexLoop h .tail n (last none rest) = some ((rest.reverse[n]?).map Prod.fst) := by
  induction n generalizing rest done with
  | zero =>
      cases rest using List.reverseRecOn with
      | nil => rfl
      | append_singleton rest x =>
          rw [indexLoop, Doubly.last_append, List.reverse_concat]
          rfl
  | succ n ih =>
      cases rest using List.reverseRecOn with
      | nil => rfl
      | append_singleton rest x =>
          rw [List.append_assoc] at hheld
          have hcell := (listNext_tail hheld).2
          rw [Doubly.last_append, List.reverse_concat, List.getElem?_cons_succ,
            ← ih ([x] ++ done) hheld]
          rw [Doubly.last_cons, Doubly.last_nil, indexLoop, hcell]
          rfl

/-- Places are counted from the head, and negative ones from the tail. -/
theorem listIndex_spec (hheld : Held h c.nodes) (index : ℤ) :
    listIndex h c.header index = some (if index < 0 then
      (c.nodes.reverse[(-index - 1).toNat]?).map Prod.fst
      else (c.nodes[index.toNat]?).map Prod.fst) := by
  rw [listIndex]
  split_ifs
  · exact indexLoop_tail [] (by rwa [List.append_nil]) _
  · exact indexLoop_head [] hheld _

/-! ## Removing nodes on the way -/

/-- What a loop that goes through `rest` keeps. -/
def kept (remove : ℕ → V → Bool) (rest : List (ℕ × V)) : List (ℕ × V) :=
  rest.filter fun x ↦ !remove x.1 x.2

def removed (remove : ℕ → V → Bool) (rest : List (ℕ × V)) : List (ℕ × V) :=
  rest.filter fun x ↦ remove x.1 x.2

theorem removed_cons {remove : ℕ → V → Bool} {x : ℕ × V} (hremove : remove x.1 x.2 = true)
    (rest : List (ℕ × V)) : removed remove (x :: rest) = x :: removed remove rest :=
  List.filter_cons_of_pos hremove

/-- From the head on, by induction on the nodes that are left. -/
theorem sweep_head (remove : ℕ → V → Bool) (done : List (ℕ × V)) {rest : List (ℕ × V)}
    {m : Methods V} (hheld : Held h (done ++ rest)) {fuel : ℕ} (hfuel : rest.length < fuel)
    (visited : List ℕ) :
    ∃ h', sweep remove fuel h (⟨m, done ++ rest⟩ : Contents V).header ⟨first rest none, .head⟩
        visited = some (h', (⟨m, done ++ kept remove rest⟩ : Contents V).header,
          visited ++ addrs rest) ∧
      Changed h h' (done ++ rest) (done ++ kept remove rest)
        (if m.free then (removed remove rest).map Prod.snd else []) := by
  induction rest generalizing h done fuel visited with
  | nil =>
      obtain ⟨fuel, rfl⟩ := Nat.exists_eq_add_one_of_ne_zero (Nat.ne_of_gt hfuel)
      simp only [kept, removed, List.filter_nil, List.map_nil, ite_self, Doubly.addrs_nil]
      refine ⟨h, ?_, hheld.changed_refl⟩
      simp only [List.append_nil]
      rfl
  | cons x rest ih =>
      obtain ⟨fuel, rfl⟩ := Nat.exists_eq_add_one_of_ne_zero
        (Nat.ne_of_gt (Nat.zero_lt_of_lt hfuel))
      have hfuel := Nat.lt_of_succ_lt_succ hfuel
      obtain ⟨hnext, p, hcell⟩ := listNext_head hheld
      have hvisited : visited ++ addrs (x :: rest) = (visited ++ [x.1]) ++ addrs rest :=
        List.append_cons _ _ _
      rw [sweep, Doubly.first_cons, hnext, Option.bind_some, hvisited]
      simp only [hcell, Option.bind_some]
      cases hremove : remove x.1 x.2 with
      | true =>
          have hkept : kept remove (x :: rest) = kept remove rest :=
            List.filter_cons_of_neg (by simp [hremove])
          obtain ⟨h₁, hrun₁, hchanged₁⟩ := listDelNode_spec
            (c := ⟨m, done ++ x :: rest⟩) (L := done) (R := rest) rfl hheld
          obtain ⟨h', hrun, hchanged⟩ := ih done hchanged₁.held hfuel (visited ++ [x.1])
          rw [hkept]
          refine ⟨h', ?_, ?_⟩
          · rw [if_pos rfl, hrun₁, Option.bind_some]
            exact hrun
          · have hboth := hchanged₁.trans hchanged
            rw [removed_cons hremove, List.map_cons]
            split_ifs at hboth ⊢
            · exact hboth
            · exact hboth
      | false =>
          have hkept : kept remove (x :: rest) = x :: kept remove rest :=
            List.filter_cons_of_pos (by simp [hremove])
          have hsplit : ∀ l : List (ℕ × V), done ++ x :: l = done ++ [x] ++ l :=
            List.append_cons _ _
          rw [hsplit] at hheld
          obtain ⟨h', hrun, hchanged⟩ := ih (done ++ [x]) hheld hfuel (visited ++ [x.1])
          rw [hkept, hsplit rest, hsplit (kept remove rest)]
          refine ⟨h', ?_, ?_⟩
          · exact hrun
          · rw [removed, List.filter_cons_of_neg (by simp [hremove])]
            exact hchanged

/-- From the tail on. -/
theorem sweep_tail (remove : ℕ → V → Bool) (done : List (ℕ × V)) {rest : List (ℕ × V)}
    {m : Methods V} (hheld : Held h (rest ++ done)) {fuel : ℕ} (hfuel : rest.length < fuel)
    (visited : List ℕ) :
    ∃ h', sweep remove fuel h (⟨m, rest ++ done⟩ : Contents V).header ⟨last none rest, .tail⟩
        visited = some (h', (⟨m, kept remove rest ++ done⟩ : Contents V).header,
          visited ++ (addrs rest).reverse) ∧
      Changed h h' (rest ++ done) (kept remove rest ++ done)
        (if m.free then (removed remove rest.reverse).map Prod.snd else []) := by
  induction rest using List.reverseRecOn generalizing h done fuel visited with
  | nil =>
      obtain ⟨fuel, rfl⟩ := Nat.exists_eq_add_one_of_ne_zero (Nat.ne_of_gt hfuel)
      simp only [kept, removed, List.filter_nil, List.reverse_nil, List.map_nil, ite_self,
        Doubly.addrs_nil, List.append_nil]
      exact ⟨h, rfl, hheld.changed_refl⟩
  | append_singleton rest x ih =>
      rw [List.length_append, List.length_singleton] at hfuel
      obtain ⟨fuel, rfl⟩ := Nat.exists_eq_add_one_of_ne_zero
        (Nat.ne_of_gt (Nat.zero_lt_of_lt hfuel))
      have hfuel := Nat.lt_of_succ_lt_succ hfuel
      have hsplit : ∀ l : List (ℕ × V), rest ++ [x] ++ l = rest ++ x :: l := fun l ↦ by
        rw [List.append_assoc, List.singleton_append]
      rw [hsplit] at hheld ⊢
      obtain ⟨hnext, hcell⟩ := listNext_tail hheld
      have hvisited : visited ++ (addrs (rest ++ [x])).reverse =
          (visited ++ [x.1]) ++ (addrs rest).reverse := by
        simp
      rw [sweep, Doubly.last_append, Doubly.last_cons, Doubly.last_nil, hnext, Option.bind_some,
        hvisited, List.reverse_concat]
      simp only [hcell, Option.bind_some]
      cases hremove : remove x.1 x.2 with
      | true =>
          have hkept : kept remove (rest ++ [x]) = kept remove rest := by
            simp [kept, hremove]
          obtain ⟨h₁, hrun₁, hchanged₁⟩ := listDelNode_spec
            (c := ⟨m, rest ++ x :: done⟩) (L := rest) (R := done) rfl hheld
          obtain ⟨h', hrun, hchanged⟩ := ih done hchanged₁.held hfuel (visited ++ [x.1])
          rw [hkept]
          refine ⟨h', ?_, ?_⟩
          · rw [if_pos rfl, hrun₁, Option.bind_some]
            exact hrun
          · have hboth := hchanged₁.trans hchanged
            rw [removed_cons hremove, List.map_cons]
            split_ifs at hboth ⊢
            · exact hboth
            · exact hboth
      | false =>
          have hkept : kept remove (rest ++ [x]) ++ done = kept remove rest ++ x :: done := by
            simp [kept, hremove]
          obtain ⟨h', hrun, hchanged⟩ := ih (x :: done) hheld hfuel (visited ++ [x.1])
          rw [hkept]
          refine ⟨h', ?_, ?_⟩
          · exact hrun
          · rw [removed, List.filter_cons_of_neg (by simp [hremove])]
            exact hchanged

/-- The nodes in the order of the iterator. -/
def Direction.order (d : Direction) (l : List (ℕ × V)) : List (ℕ × V) :=
  match d with
  | .head => l
  | .tail => l.reverse

/-- The loop comes to every node once, whatever it removes. -/
theorem sweep_spec (hheld : Held h c.nodes) (d : Direction) (remove : ℕ → V → Bool) :
    ∃ h', sweep remove (c.nodes.length + 1) h c.header (d.rewind c.header) [] =
        some (h', { c with nodes := kept remove c.nodes }.header, addrs (d.order c.nodes)) ∧
      Changed h h' c.nodes (kept remove c.nodes)
        (if c.free then (removed remove (d.order c.nodes)).map Prod.snd else []) := by
  cases d with
  | head => exact sweep_head remove [] hheld (Nat.lt_succ_self _) []
  | tail =>
      have hheld' : Held h (c.nodes ++ []) := by rwa [List.append_nil]
      have hsweep := sweep_tail (m := c.toMethods) remove [] hheld'
        (Nat.lt_succ_self _) []
      rw [List.append_nil, List.append_nil] at hsweep
      rw [Direction.order, Doubly.addrs_reverse]
      exact hsweep

end Adlist

end MuxHiredis
