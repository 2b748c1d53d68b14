import MuxHiredis.Adlist.Iterating
import MuxHiredis.Lib.Machine

/-!
# Runs of list operations

Any number of lists in one heap.  In every run that keeps to the contract of `list.h` no
operation reads or writes at no node, and each list holds what plain lists would hold.
-/

namespace MuxHiredis

namespace Adlist

open Doubly (first last addrs Seg)

variable {K V : Type*}

structure Lists (K V : Type*) where
  heap : Heap V
  lists : K → Option (AdList V)

/-- An operation, with the results of `malloc`; a loop whose iterator is `NULL` does
nothing. -/
inductive Op (K V : Type*) where
  | create (k : K) (malloc : Bool)
  | setMethods (k : K) (m : Methods V)
  | release (k : K)
  | empty (k : K)
  | addHead (k : K) (value : V) (node : Option ℕ)
  | addTail (k : K) (value : V) (node : Option ℕ)
  | insert (k : K) (old_node : ℕ) (value : V) (after : Bool) (node : Option ℕ)
  | del (k : K) (node : ℕ)
  | rotate (k : K)
  | join (l o : K)
  | dup (k copy : K) (header : Bool) (mallocs : List (Option ℕ))
  | sweep (k : K) (direction : Direction) (malloc : Bool) (remove : ℕ → V → Bool)

section

variable [DecidableEq K]

def Lists.put (s : Lists K V) (k : K) (h : Heap V) (list : Option (AdList V)) : Lists K V :=
  ⟨h, Function.update s.lists k list⟩

def Lists.step (s : Lists K V) : Op K V → Option (Lists K V)
  | .create k malloc => some (s.put k s.heap (listCreate malloc))
  | .setMethods k m =>
      (s.lists k).map fun list ↦ s.put k s.heap (some { list with toMethods := m })
  | .release k =>
      (s.lists k).bind fun list ↦ (listRelease s.heap list).map fun h ↦ s.put k h none
  | .empty k =>
      (s.lists k).bind fun list ↦
        (listEmpty s.heap list).map fun r ↦ s.put k r.1 (some r.2)
  | .addHead k value node =>
      (s.lists k).bind fun list ↦
        (listAddNodeHead s.heap list value node).map fun r ↦ s.put k r.1 (some r.2.1)
  | .addTail k value node =>
      (s.lists k).bind fun list ↦
        (listAddNodeTail s.heap list value node).map fun r ↦ s.put k r.1 (some r.2.1)
  | .insert k old_node value after node =>
      (s.lists k).bind fun list ↦
        (listInsertNode s.heap list (some old_node) value after node).map fun r ↦
          s.put k r.1 (some r.2.1)
  | .del k node =>
      (s.lists k).bind fun list ↦
        (listDelNode s.heap list node).map fun r ↦ s.put k r.1 (some r.2)
  | .rotate k =>
      (s.lists k).bind fun list ↦
        (listRotate s.heap list).map fun r ↦ s.put k r.1 (some r.2)
  | .join l o =>
      (s.lists l).bind fun x ↦ (s.lists o).bind fun y ↦
        (listJoin s.heap x y).map fun r ↦
          (s.put l r.1 (some r.2.1)).put o r.1 (some r.2.2)
  | .dup k copy header mallocs =>
      (s.lists k).bind fun list ↦
        (listDup s.heap list header mallocs).map fun r ↦ s.put copy r.1 r.2
  | .sweep k direction malloc remove =>
      (s.lists k).bind fun list ↦
        match listGetIterator list direction malloc with
        | none => some s
        | some iter =>
            (sweep remove (list.len + 1) s.heap list iter []).map fun r ↦
              s.put k r.1 (some r.2.1)

def lists : Machine (Lists K V) (Op K V) where
  start := fun s ↦ s = ⟨⟨fun _ ↦ none, []⟩, fun _ ↦ none⟩
  step := Lists.step

end

/-! ## Plain lists -/

structure Model (K V : Type*) where
  lists : K → Option (Contents V)
  freed : List V

def nodesOf (c : Option (Contents V)) : List (ℕ × V) := (c.map Contents.nodes).getD []

namespace Model

def nodes (t : Model K V) (k : K) : List (ℕ × V) := nodesOf (t.lists k)

/-- No list has the node. -/
def Unused (t : Model K V) (a : ℕ) : Prop := ∀ k, a ∉ addrs (t.nodes k)

/-- The contract of an operation: lists and nodes that are there, and `malloc` returns new
ones.  An empty list may only be joined to an empty one. -/
def Allowed (t : Model K V) : Op K V → Prop
  | .create k _ => t.lists k = none
  | .setMethods k _ | .release k | .empty k | .rotate k | .sweep k _ _ _ => (t.lists k).isSome
  | .addHead k _ node | .addTail k _ node =>
      (t.lists k).isSome ∧ ∀ a ∈ node, t.Unused a
  | .insert k old_node _ _ node =>
      old_node ∈ addrs (t.nodes k) ∧ ∀ a ∈ node, t.Unused a
  | .del k node => node ∈ addrs (t.nodes k)
  | .join l o =>
      l ≠ o ∧ (t.lists l).isSome ∧ (t.lists o).isSome ∧ (t.nodes o ≠ [] ∨ t.nodes l = [])
  | .dup k copy _ mallocs =>
      (t.lists k).isSome ∧ t.lists copy = none ∧
        (∀ a ∈ mallocs.filterMap id, t.Unused a) ∧ (mallocs.filterMap id).Nodup

instance [Fintype K] (t : Model K V) (a : ℕ) : Decidable (t.Unused a) :=
  inferInstanceAs (Decidable (∀ _, _))

instance [Fintype K] [DecidableEq K] [DecidableEq V] (t : Model K V) (op : Op K V) :
    Decidable (t.Allowed op) :=
  match op with
  | .create k _ => inferInstanceAs (Decidable (t.lists k = none))
  | .setMethods k _ | .release k | .empty k | .rotate k | .sweep k _ _ _ =>
      inferInstanceAs (Decidable ((t.lists k).isSome = true))
  | .addHead _ _ _ | .addTail _ _ _ | .insert _ _ _ _ _ | .join _ _ | .dup _ _ _ _ =>
      inferInstanceAs (Decidable (_ ∧ _))
  | .del k node => inferInstanceAs (Decidable (node ∈ addrs (t.nodes k)))

/-- A new element beside the node. -/
def insertBeside (node : ℕ) (after : Bool) (x : ℕ × V) : List (ℕ × V) → List (ℕ × V)
  | [] => []
  | y :: l =>
      if y.1 = node then (if after then y :: x :: l else x :: y :: l)
      else y :: insertBeside node after x l

variable [DecidableEq K]

def put (t : Model K V) (k : K) (c : Option (Contents V)) (freed : List V) : Model K V :=
  ⟨Function.update t.lists k c, t.freed ++ freed⟩

/-- Other elements for the list, with the values that are freed if there is a method. -/
def change (t : Model K V) (k : K) (nodes : List (ℕ × V)) (freed : List V) : Model K V :=
  match t.lists k with
  | none => t
  | some c => t.put k (some { c with nodes := nodes }) (if c.free then freed else [])

def apply (t : Model K V) : Op K V → Model K V
  | .create k malloc => t.put k (if malloc then some ⟨⟨none, false, none⟩, []⟩ else none) []
  | .setMethods k m => t.put k (some ⟨m, t.nodes k⟩) []
  | .release k =>
      (t.change k [] ((t.nodes k).map Prod.snd)).put k none []
  | .empty k => t.change k [] ((t.nodes k).map Prod.snd)
  | .addHead _ _ none | .addTail _ _ none | .insert _ _ _ _ none => t
  | .addHead k value (some a) => t.change k ((a, value) :: t.nodes k) []
  | .addTail k value (some a) => t.change k (t.nodes k ++ [(a, value)]) []
  | .insert k old_node value after (some a) =>
      t.change k (insertBeside old_node after (a, value) (t.nodes k)) []
  | .del k node =>
      t.change k ((t.nodes k).filter fun x ↦ x.1 ≠ node)
        (((t.nodes k).filter fun x ↦ x.1 = node).map Prod.snd)
  | .rotate k => t.change k (rotated (t.nodes k)) []
  | .join l o => (t.change l (t.nodes l ++ t.nodes o) []).change o [] []
  | .dup k copy header mallocs =>
      match t.lists k with
      | none => t
      | some c =>
          if header then
            let copied := copies c.toMethods c.nodes mallocs
            if copied.2 then t.put copy (some { c with nodes := copied.1 }) []
            else t.put copy none (if c.free then copied.1.map Prod.snd else [])
          else t.put copy none []
  | .sweep k direction malloc remove =>
      if malloc then
        t.change k (kept remove (t.nodes k))
          ((removed remove (direction.order (t.nodes k))).map Prod.snd)
      else t

end Model

def plain [DecidableEq K] : Machine (Model K V) (Op K V) where
  start := fun t ↦ t = ⟨fun _ ↦ none, []⟩
  step := fun t op ↦ some (t.apply op)

/-- The lists of the heap are those of the model, and it has no other nodes. -/
structure Represents (s : Lists K V) (t : Model K V) : Prop where
  headers : ∀ k, s.lists k = (t.lists k).map Contents.header
  held : ∀ k, Held s.heap (t.nodes k)
  apart : ∀ k k', k ≠ k' → (addrs (t.nodes k)).Disjoint (addrs (t.nodes k'))
  owned : ∀ a, s.heap.nodes a ≠ none → ∃ k, a ∈ addrs (t.nodes k)
  freed : s.heap.freed = t.freed

variable {s : Lists K V} {t : Model K V} {k : K} {c : Contents V}

theorem Represents.unused (h : Represents s t) {a : ℕ} (ha : t.Unused a) :
    s.heap.nodes a = none := by
  by_contra hne
  obtain ⟨k, hk⟩ := h.owned a hne
  exact ha k hk

theorem nodes_eq (hc : t.lists k = some c) : t.nodes k = c.nodes := by
  rw [Model.nodes, hc]
  rfl

theorem Represents.header (h : Represents s t) (hc : t.lists k = some c) :
    s.lists k = some c.header := by
  rw [h.headers, hc]
  rfl

theorem Represents.held_list (h : Represents s t) (hc : t.lists k = some c) :
    Held s.heap c.nodes := by
  rw [← nodes_eq hc]
  exact h.held k

theorem represents_start :
    Represents (⟨⟨fun _ ↦ none, []⟩, fun _ ↦ none⟩ : Lists K V) ⟨fun _ ↦ none, []⟩ where
  headers := fun _ ↦ rfl
  held := fun _ ↦ ⟨trivial, List.nodup_nil⟩
  apart := fun _ _ _ ↦ List.disjoint_nil_left _
  owned := fun _ ha ↦ absurd rfl ha
  freed := rfl

variable [DecidableEq K]

theorem nodes_put (t : Model K V) (k k' : K) (c : Option (Contents V)) (freed : List V) :
    (t.put k c freed).nodes k' = if k' = k then nodesOf c else t.nodes k' := by
  simp only [Model.nodes, Model.put, Function.update_apply]
  split_ifs <;> rfl

/-- One list is changed, and the others stay as they are. -/
theorem Represents.changed (h : Represents s t) {h' : Heap V} (c' : Option (Contents V))
    {freed : List V} (hchanged : Changed s.heap h' (t.nodes k) (nodesOf c') freed) :
    Represents (s.put k h' (c'.map Contents.header)) (t.put k c' freed) where
  headers := by
    intro k'
    simp only [Lists.put, Model.put, Function.update_apply]
    split_ifs
    · rfl
    · exact h.headers k'
  held := by
    intro k'
    rw [nodes_put]
    split_ifs with hk
    · exact hchanged.held
    · exact (hchanged.other (h.held k') (h.apart k' k hk)).1
  apart := by
    intro k₁ k₂ hne
    rw [nodes_put, nodes_put]
    split_ifs with h₁ h₂ h₂
    · exact absurd (h₁.trans h₂.symm) hne
    · exact (hchanged.other (h.held k₂) (h.apart k₂ k h₂)).2.symm
    · exact (hchanged.other (h.held k₁) (h.apart k₁ k h₁)).2
    · exact h.apart k₁ k₂ hne
  owned := by
    intro a ha
    by_cases hnew : a ∈ addrs (nodesOf c')
    · exact ⟨k, by rwa [nodes_put, if_pos rfl]⟩
    · by_cases hold : a ∈ addrs (t.nodes k)
      · exact absurd (hchanged.gone a hold hnew) ha
      · obtain ⟨k', hk'⟩ := h.owned a (by rwa [← hchanged.frame a hold hnew])
        have hne : k' ≠ k := by
          rintro rfl
          exact hold hk'
        exact ⟨k', by rwa [nodes_put, if_neg hne]⟩
  freed := by
    change h'.freed = t.freed ++ freed
    rw [hchanged.freed, h.freed]

theorem Represents.change (h : Represents s t) (hc : t.lists k = some c) {h' : Heap V}
    {nodes : List (ℕ × V)} {freed : List V}
    (hchanged : Changed s.heap h' c.nodes nodes (if c.free then freed else [])) :
    Represents (s.put k h' (some { c with nodes := nodes }.header)) (t.change k nodes freed) := by
  rw [Model.change, hc]
  apply h.changed (some { c with nodes := nodes })
  rwa [Model.nodes, hc]

/-- Nothing is freed. -/
theorem Represents.change_nil (h : Represents s t) (hc : t.lists k = some c) {h' : Heap V}
    {nodes : List (ℕ × V)} (hchanged : Changed s.heap h' c.nodes nodes []) :
    Represents (s.put k h' (some { c with nodes := nodes }.header)) (t.change k nodes []) := by
  apply h.change hc
  rwa [ite_self]

theorem change_nil_eq (hc : t.lists k = some c) (nodes : List (ℕ × V)) :
    t.change k nodes [] = t.put k (some { c with nodes := nodes }) [] := by
  rw [Model.change, hc]
  dsimp only
  rw [ite_self]

theorem put_self (s : Lists K V) {list : AdList V} (hlist : s.lists k = some list) :
    s.put k s.heap (some list) = s := by
  rw [Lists.put, Function.update_eq_self_iff.mpr hlist.symm]

theorem insertBeside_append {L R : List (ℕ × V)} {a : ℕ} {v : V} (ha : a ∉ addrs L)
    (after : Bool) (x : ℕ × V) :
    Model.insertBeside a after x (L ++ (a, v) :: R) =
      if after then L ++ (a, v) :: x :: R else L ++ x :: (a, v) :: R := by
  induction L with
  | nil => simp only [List.nil_append, Model.insertBeside, if_true]
  | cons y L ih =>
      obtain ⟨hne, ha⟩ := List.ne_and_not_mem_of_not_mem_cons ha
      rw [List.cons_append, Model.insertBeside, if_neg hne.symm, ih ha]
      split_ifs <;> rfl

/-- The nodes with the address, and the others. -/
theorem filter_append {L R : List (ℕ × V)} {a : ℕ} {v : V}
    (hnodup : (addrs (L ++ (a, v) :: R)).Nodup) :
    (L ++ (a, v) :: R).filter (fun x ↦ x.1 ≠ a) = L ++ R ∧
      (L ++ (a, v) :: R).filter (fun x ↦ x.1 = a) = [(a, v)] := by
  obtain ⟨-, hnaR, hapart⟩ := Doubly.nodup_addrs_append.mp hnodup
  have haL : ∀ x ∈ L, x.1 ≠ a := by
    rintro ⟨b, w⟩ hx rfl
    exact hapart (List.mem_map_of_mem hx) List.mem_cons_self
  have haR : ∀ x ∈ R, x.1 ≠ a := by
    rintro ⟨b, w⟩ hx rfl
    exact (List.nodup_cons.mp hnaR).1 (List.mem_map.mpr ⟨(b, w), hx, rfl⟩)
  constructor
  · rw [List.filter_append, List.filter_cons_of_neg (by simp),
      List.filter_eq_self.mpr (by simpa using haL), List.filter_eq_self.mpr (by simpa using haR)]
  · rw [List.filter_append, List.filter_cons_of_pos (by simp),
      List.filter_eq_nil_iff.mpr (by simpa using haL),
      List.filter_eq_nil_iff.mpr (by simpa using haR), List.nil_append]

theorem mem_addrs_split {l : List (ℕ × V)} {a : ℕ} (ha : a ∈ addrs l) :
    ∃ L R v, l = L ++ (a, v) :: R := by
  obtain ⟨⟨b, v⟩, hmem, rfl⟩ := List.mem_map.mp ha
  obtain ⟨L, R, rfl⟩ := List.append_of_mem hmem
  exact ⟨L, R, v, rfl⟩

/-- A list that was not there is empty, or is still not there. -/
theorem put_represents (h : Represents s t) (hnone : t.lists k = none) (c : Option (Contents V))
    (hempty : nodesOf c = []) :
    Represents (s.put k s.heap (c.map Contents.header)) (t.put k c []) := by
  apply h.changed c
  rw [Model.nodes, hnone, hempty]
  exact Held.changed_refl ⟨trivial, List.nodup_nil⟩

theorem setMethods_represents (h : Represents s t) (hc : t.lists k = some c) (m : Methods V) :
    Represents (s.put k s.heap (some { c.header with toMethods := m }))
      (t.put k (some ⟨m, t.nodes k⟩) []) := by
  rw [nodes_eq hc]
  apply h.changed (some ⟨m, c.nodes⟩)
  rw [nodes_eq hc]
  exact (h.held_list hc).changed_refl

theorem release_represents (h : Represents s t) (hc : t.lists k = some c) :
    ∃ h', listRelease s.heap c.header = some h' ∧
      Represents (s.put k h' none)
        ((t.change k [] ((t.nodes k).map Prod.snd)).put k none []) := by
  obtain ⟨h', hrun, hchanged⟩ := listRelease_spec (h.held_list hc)
  refine ⟨h', hrun, ?_⟩
  have hput : (t.change k [] ((t.nodes k).map Prod.snd)).put k none [] =
      t.put k none (if c.free then c.nodes.map Prod.snd else []) := by
    rw [Model.change, hc, nodes_eq hc]
    simp only [Model.put, Function.update_idem, List.append_nil]
  rw [hput]
  apply h.changed none
  rwa [nodes_eq hc]

theorem insert_represents (h : Represents s t) {old_node a : ℕ}
    (hold : old_node ∈ addrs (t.nodes k)) (ha : t.Unused a) (value : V) (after : Bool) :
    ∃ c h' list, t.lists k = some c ∧ listInsertNode s.heap c.header (some old_node) value after
        (some a) = some (h', list, true) ∧
      Represents (s.put k h' (some list))
        (t.change k (Model.insertBeside old_node after (a, value) (t.nodes k)) []) := by
  cases hc : t.lists k with
  | none =>
      rw [Model.nodes, hc] at hold
      exact absurd hold List.not_mem_nil
  | some c =>
      rw [nodes_eq hc] at hold ⊢
      have hheld := h.held_list hc
      obtain ⟨L, R, v, hnodes⟩ := mem_addrs_split hold
      obtain ⟨h', hrun, hchanged⟩ := listInsertNode_spec hnodes hheld (h.unused ha) value after
      have hnot : old_node ∉ addrs L := by
        have hnodup := hheld.nodup
        rw [hnodes] at hnodup
        exact fun hmem ↦ (Doubly.nodup_addrs_append.mp hnodup).2.2 hmem List.mem_cons_self
      rw [← insertBeside_append hnot, ← hnodes] at hrun hchanged
      exact ⟨c, h', _, rfl, hrun, h.change_nil hc hchanged⟩

theorem del_represents (h : Represents s t) {node : ℕ} (hnode : node ∈ addrs (t.nodes k)) :
    ∃ c h' list, t.lists k = some c ∧ listDelNode s.heap c.header node = some (h', list) ∧
      Represents (s.put k h' (some list)) (t.apply (.del k node)) := by
  cases hc : t.lists k with
  | none =>
      rw [Model.nodes, hc] at hnode
      exact absurd hnode List.not_mem_nil
  | some c =>
      rw [nodes_eq hc] at hnode
      have hheld := h.held_list hc
      obtain ⟨L, R, v, hnodes⟩ := mem_addrs_split hnode
      obtain ⟨h', hrun, hchanged⟩ := listDelNode_spec hnodes hheld
      have hnodup := hheld.nodup
      rw [hnodes] at hnodup
      obtain ⟨hothers, hself⟩ := filter_append hnodup
      refine ⟨c, h', _, rfl, hrun, ?_⟩
      rw [Model.apply, nodes_eq hc, hnodes, hothers, hself]
      exact h.change hc hchanged

theorem join_represents (h : Represents s t) {l o : K} (hne : l ≠ o) {c x : Contents V}
    (hc : t.lists l = some c) (hx : t.lists o = some x)
    (hempty : t.nodes o ≠ [] ∨ t.nodes l = []) :
    ∃ h' list other, listJoin s.heap c.header x.header = some (h', list, other) ∧
      Represents ((s.put l h' (some list)).put o h' (some other)) (t.apply (.join l o)) := by
  have hapart := h.apart l o hne
  rw [nodes_eq hc, nodes_eq hx] at hapart hempty
  obtain ⟨h', hrun, hheld, hframe, hfreed⟩ :=
    listJoin_spec (h.held_list hc) (h.held_list hx) hapart hempty
  refine ⟨h', _, _, hrun, ?_⟩
  have happly : t.apply (.join l o) =
      (t.put l (some { c with nodes := c.nodes ++ x.nodes }) []).put o
        (some { x with nodes := [] }) [] := by
    have hput : (t.put l (some { c with nodes := c.nodes ++ x.nodes }) []).lists o = some x :=
      (Function.update_of_ne hne.symm _ _).trans hx
    rw [Model.apply, nodes_eq hc, nodes_eq hx, change_nil_eq hc, change_nil_eq hput]
  have hnodes : ∀ k, (t.apply (.join l o)).nodes k =
      if k = o then [] else if k = l then c.nodes ++ x.nodes else t.nodes k := by
    intro k
    rw [happly, nodes_put, nodes_put]
    rfl
  have hother : ∀ k, k ≠ l → k ≠ o → ∀ a ∈ addrs (t.nodes k), a ∉ addrs (c.nodes ++ x.nodes) := by
    intro k hkl hko a ha hmem
    rw [Doubly.addrs_append, List.mem_append] at hmem
    rcases hmem with hmem | hmem
    · exact h.apart k l hkl ha (by rwa [nodes_eq hc])
    · exact h.apart k o hko ha (by rwa [nodes_eq hx])
  refine ⟨fun k ↦ ?_, fun k ↦ ?_, fun k₁ k₂ hk ↦ ?_, fun a ha ↦ ?_, ?_⟩
  · rw [happly]
    simp only [Lists.put, Model.put, Function.update_apply]
    split_ifs
    · rfl
    · rfl
    · exact h.headers k
  · rw [hnodes]
    split_ifs with ho hl
    · exact ⟨trivial, List.nodup_nil⟩
    · exact hheld
    · refine ⟨(h.held k).seg.congr fun a ha ↦ ?_, (h.held k).nodup⟩
      exact hframe a (hother k hl ho a ha)
  · rw [hnodes, hnodes]
    split_ifs with ho₁ ho₂ hl₂ hl₁ ho₂ hl₂ ho₂ hl₂
    · exact List.disjoint_nil_left _
    · exact List.disjoint_nil_left _
    · exact List.disjoint_nil_left _
    · exact List.disjoint_nil_right _
    · exact absurd (hl₁.trans hl₂.symm) hk
    · exact fun a ha ha' ↦ hother k₂ hl₂ ho₂ a ha' ha
    · exact List.disjoint_nil_right _
    · exact fun a ha ha' ↦ hother k₁ hl₁ ho₁ a ha ha'
    · exact h.apart k₁ k₂ hk
  · by_cases hmem : a ∈ addrs (c.nodes ++ x.nodes)
    · exact ⟨l, by rwa [hnodes, if_neg hne, if_pos rfl]⟩
    · obtain ⟨k, hk⟩ := h.owned a (by rwa [← hframe a hmem])
      rw [Doubly.addrs_append, List.mem_append, not_or] at hmem
      have hkl : k ≠ l := by
        rintro rfl
        exact hmem.1 (by rwa [nodes_eq hc] at hk)
      have hko : k ≠ o := by
        rintro rfl
        exact hmem.2 (by rwa [nodes_eq hx] at hk)
      exact ⟨k, by rwa [hnodes, if_neg hko, if_neg hkl]⟩
  · rw [happly]
    simp only [Lists.put, Model.put, List.append_nil]
    rw [hfreed, h.freed]

/-- What one operation does. -/
theorem step_represents (h : Represents s t) {op : Op K V} (hallowed : t.Allowed op) :
    ∃ s', s.step op = some s' ∧ Represents s' (t.apply op) := by
  have hlist : ∀ {k}, (t.lists k).isSome → ∃ c, t.lists k = some c := Option.isSome_iff_exists.mp
  cases op with
  | create k malloc =>
      cases malloc with
      | true => exact ⟨_, rfl, put_represents h hallowed (some ⟨⟨none, false, none⟩, []⟩) rfl⟩
      | false => exact ⟨_, rfl, put_represents h hallowed none rfl⟩
  | setMethods k m =>
      obtain ⟨c, hc⟩ := hlist hallowed
      refine ⟨_, ?_, setMethods_represents h hc m⟩
      rw [Lists.step, h.header hc]
      rfl
  | release k =>
      obtain ⟨c, hc⟩ := hlist hallowed
      obtain ⟨h', hrun, hrep⟩ := release_represents h hc
      refine ⟨_, ?_, hrep⟩
      rw [Lists.step, h.header hc, Option.bind_some, hrun]
      rfl
  | empty k =>
      obtain ⟨c, hc⟩ := hlist hallowed
      obtain ⟨h', hrun, hchanged⟩ := listEmpty_spec (h.held_list hc)
      rw [Model.apply, nodes_eq hc]
      refine ⟨_, ?_, h.change hc hchanged⟩
      rw [Lists.step, h.header hc, Option.bind_some, hrun]
      rfl
  | addHead k value node =>
      obtain ⟨c, hc⟩ := hlist hallowed.1
      rw [Lists.step, h.header hc, Option.bind_some]
      cases node with
      | none => exact ⟨s, congrArg some (put_self s (h.header hc)), h⟩
      | some a =>
          obtain ⟨h', hrun, hchanged⟩ := listAddNodeHead_spec (h.held_list hc)
            (h.unused (hallowed.2 a rfl)) value
          rw [Model.apply, nodes_eq hc, hrun]
          exact ⟨_, rfl, h.change_nil hc hchanged⟩
  | addTail k value node =>
      obtain ⟨c, hc⟩ := hlist hallowed.1
      rw [Lists.step, h.header hc, Option.bind_some]
      cases node with
      | none => exact ⟨s, congrArg some (put_self s (h.header hc)), h⟩
      | some a =>
          obtain ⟨h', hrun, hchanged⟩ := listAddNodeTail_spec (h.held_list hc)
            (h.unused (hallowed.2 a rfl)) value
          rw [Model.apply, nodes_eq hc, hrun]
          exact ⟨_, rfl, h.change_nil hc hchanged⟩
  | insert k old_node value after node =>
      cases node with
      | none =>
          cases hc : t.lists k with
          | none =>
              have hold := hallowed.1
              rw [Model.nodes, hc] at hold
              exact absurd hold List.not_mem_nil
          | some c =>
              rw [Lists.step, h.header hc]
              exact ⟨s, congrArg some (put_self s (h.header hc)), h⟩
      | some a =>
          obtain ⟨c, h', list, hc, hrun, hrep⟩ :=
            insert_represents h hallowed.1 (hallowed.2 a rfl) value after
          refine ⟨_, ?_, hrep⟩
          rw [Lists.step, h.header hc, Option.bind_some, hrun]
          rfl
  | del k node =>
      obtain ⟨c, h', list, hc, hrun, hrep⟩ := del_represents h hallowed
      refine ⟨_, ?_, hrep⟩
      rw [Lists.step, h.header hc, Option.bind_some, hrun]
      rfl
  | rotate k =>
      obtain ⟨c, hc⟩ := hlist hallowed
      obtain ⟨h', hrun, hchanged⟩ := listRotate_spec (h.held_list hc)
      rw [Model.apply, nodes_eq hc]
      refine ⟨_, ?_, h.change_nil hc hchanged⟩
      rw [Lists.step, h.header hc, Option.bind_some, hrun]
      rfl
  | join l o =>
      obtain ⟨hne, hl, ho, hempty⟩ := hallowed
      obtain ⟨c, hc⟩ := hlist hl
      obtain ⟨x, hx⟩ := hlist ho
      obtain ⟨h', list, other, hrun, hrep⟩ := join_represents h hne hc hx hempty
      refine ⟨_, ?_, hrep⟩
      rw [Lists.step, h.header hc, h.header hx, Option.bind_some, Option.bind_some, hrun]
      rfl
  | dup k copy header mallocs =>
      obtain ⟨hk, hcopy, hunused, hnodup⟩ := hallowed
      obtain ⟨c, hc⟩ := hlist hk
      rw [Lists.step, h.header hc, Option.bind_some, Model.apply, hc]
      cases header with
      | false => exact ⟨_, rfl, put_represents h hcopy none rfl⟩
      | true =>
          have hnone : t.nodes copy = [] := by
            rw [Model.nodes, hcopy]
            rfl
          obtain ⟨h', hrun, hchanged⟩ := listDup_spec c mallocs (h.held_list hc)
            ⟨fun a ha ↦ h.unused (hunused a (List.mem_filterMap.mpr ⟨_, ha, rfl⟩)), hnodup⟩
          rw [hrun, Option.map_some]
          refine ⟨_, rfl, ?_⟩
          simp only [if_true]
          split_ifs at hchanged ⊢ with hok hfree
          · apply h.changed (some { c with nodes := _ })
            rwa [hnone]
          · apply h.changed none
            rwa [hnone]
          · apply h.changed none
            rwa [hnone]
  | sweep k direction malloc remove =>
      obtain ⟨c, hc⟩ := hlist hallowed
      rw [Lists.step, h.header hc, Option.bind_some]
      cases malloc with
      | false => exact ⟨s, rfl, h⟩
      | true =>
          obtain ⟨h', hrun, hchanged⟩ := sweep_spec (h.held_list hc) direction remove
          rw [Model.apply, nodes_eq hc, if_pos rfl]
          refine ⟨_, ?_, h.change hc hchanged⟩
          have hrun : sweep remove (c.header.len + 1) s.heap c.header
            (direction.rewind c.header) [] = _ := hrun
          rw [listGetIterator, if_pos rfl]
          dsimp only
          rw [hrun]
          rfl

theorem plain_run (t : Model K V) (ops : List (Op K V)) :
    plain.run t ops = some (ops.foldl Model.apply t) := by
  induction ops generalizing t with
  | nil => rfl
  | cons op ops ih => exact ih (t.apply op)

theorem Represents.run (h : Represents s t) (ops : List (Op K V))
    (hallowed : plain.Meets Model.Allowed t ops) :
    ∃ s', lists.run s ops = some s' ∧ Represents s' (ops.foldl Model.apply t) := by
  apply Machine.run_simulates _ h hallowed (plain_run _ _)
  intro s t op t' h hop hstep
  obtain rfl := Option.some.inj hstep
  exact step_represents h hop

/-- In every run within the contract, the lists are those of plain lists. -/
theorem lists_run (ops : List (Op K V))
    (hallowed : plain.Meets Model.Allowed ⟨fun _ ↦ none, []⟩ ops) :
    ∃ s, lists.run ⟨⟨fun _ ↦ none, []⟩, fun _ ↦ none⟩ ops = some s ∧
      Represents s (ops.foldl Model.apply ⟨fun _ ↦ none, []⟩) :=
  represents_start.run ops hallowed

/-- Two lists are joined. -/
def joinOps : List (Op Bool ℕ) :=
  [.create true true, .addTail true 7 (some 1), .create false true, .addHead false 9 (some 3),
    .insert false 3 8 true (some 2), .join true false, .rotate true, .del true 1]

theorem lists_run_joined :
    (∃ s, lists.run ⟨⟨fun _ ↦ none, []⟩, fun _ ↦ none⟩ joinOps = some s ∧
      Represents s (joinOps.foldl Model.apply ⟨fun _ ↦ none, []⟩)) ∧
      (joinOps.foldl Model.apply ⟨fun _ ↦ none, []⟩).nodes true = [(2, 8), (3, 9)] :=
  ⟨lists_run _ (by decide), by decide⟩

/-- In every run within the contract, a search finds the first node that matches, a place is
counted from either end, and a loop that removes nodes comes to each one once. -/
theorem lists_read [DecidableEq V] (ops : List (Op K V))
    (hallowed : plain.Meets Model.Allowed ⟨fun _ ↦ none, []⟩ ops) {s : Lists K V}
    (hrun : lists.run ⟨⟨fun _ ↦ none, []⟩, fun _ ↦ none⟩ ops = some s) {k : K} {list : AdList V}
    (hlist : s.lists k = some list) :
    ∃ c, (ops.foldl Model.apply ⟨fun _ ↦ none, []⟩).lists k = some c ∧
      (∀ key, listSearchKey s.heap list key =
        some ((c.nodes.find? fun x ↦ c.toMethods.keyMatches key x.2).map Prod.fst)) ∧
      (∀ index, listIndex s.heap list index = some (if index < 0 then
        (c.nodes.reverse[(-index - 1).toNat]?).map Prod.fst
        else (c.nodes[index.toNat]?).map Prod.fst)) ∧
      ∀ direction malloc remove, ∀ iter ∈ listGetIterator list direction malloc,
        ∃ h', sweep remove (list.len + 1) s.heap list iter [] =
          some (h', { c with nodes := kept remove c.nodes }.header,
            addrs (direction.order c.nodes)) := by
  obtain ⟨s', hrun', h⟩ := represents_start.run ops hallowed
  obtain rfl := Option.some.inj (hrun.symm.trans hrun')
  rw [h.headers] at hlist
  obtain ⟨c, hc, rfl⟩ := Option.map_eq_some_iff.mp hlist
  have hheld := h.held_list hc
  refine ⟨c, hc, listSearchKey_spec hheld, listIndex_spec hheld,
    fun direction malloc remove iter hiter ↦ ?_⟩
  obtain ⟨-, rfl⟩ : malloc = true ∧ direction.rewind c.header = iter := by
    simpa [listGetIterator] using hiter
  obtain ⟨h', hsweep, -⟩ := sweep_spec hheld direction remove
  exact ⟨h', hsweep⟩

theorem lists_read_joined :
    ∃ s list, lists.run ⟨⟨fun _ ↦ none, []⟩, fun _ ↦ none⟩ joinOps = some s ∧
      s.lists true = some list ∧ listSearchKey s.heap list 9 = some (some 3) ∧
      listIndex s.heap list (-2) = some (some 2) := by
  obtain ⟨s, hrun, h⟩ := represents_start.run joinOps (by decide)
  have hlist := h.headers true
  obtain ⟨c, hc, hsearch, hindex, -⟩ := lists_read joinOps (by decide) hrun hlist
  obtain rfl : _ = c := Option.some.inj hc
  exact ⟨s, _, hrun, hlist, hsearch 9, hindex (-2)⟩

end Adlist

end MuxHiredis
