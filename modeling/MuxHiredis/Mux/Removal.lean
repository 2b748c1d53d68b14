import MuxHiredis.Adlist.Iterating

/-!
# Deleting a node in several steps

A caller whose wait is over looks for its command in `cmd_list` and deletes it there
without a lock, so that others can come between the statements of `listDelNode`.  A
node goes by the number of the command that is its value.
-/

namespace MuxHiredis

open Adlist

open Doubly (Reaches Seg first last addrs setNext? setPrev?)

namespace Adlist

variable {V : Type*}

/-! ## The statements of `listDelNode` -/

/-- `if (node->prev) node->prev->next = node->next; else list->head = node->next;` -/
def delForward (h : Heap V) (list : AdList V) (node : ℕ) : Option (Heap V × AdList V) :=
  (h.nodes node).bind fun c ↦ (setNext? h.nodes c.prev c.next).map fun nodes ↦
    ({ h with nodes := nodes }, { list with head := if c.prev.isSome then list.head else c.next })

/-- `if (node->next) node->next->prev = node->prev; else list->tail = node->prev;` -/
def delBackward (h : Heap V) (list : AdList V) (node : ℕ) : Option (Heap V × AdList V) :=
  (h.nodes node).bind fun c ↦ (setPrev? h.nodes c.next c.prev).map fun nodes ↦
    ({ h with nodes := nodes }, { list with tail := if c.next.isSome then list.tail else c.prev })

/-- `free(node); list->len--;` -/
def delFree (h : Heap V) (list : AdList V) (node : ℕ) : Option (Heap V × AdList V) :=
  (h.nodes node).map fun c ↦
    (h.freeNode list.free node c.value, { list with len := list.len - 1 })

end Adlist

/-- Where a caller stands in `listSearchKey` and in `listDelNode`. -/
inductive Removal where
  | idle
  | looking
  | found (node : ℕ)
  | forward (node : ℕ)
  | backward (node : ℕ)
  deriving DecidableEq

/-- The caller is about to delete the node of its command. -/
def Removal.Of (id : ℕ) : Removal → Prop
  | .idle => False
  | .looking => True
  | .found node | .forward node | .backward node => node = id

theorem Removal.Of.ne_idle {id : ℕ} {removal : Removal} (h : removal.Of id) : removal ≠ .idle := by
  rintro rfl
  exact h

namespace Removal

/-! ## What the linked list holds -/

/-- The nodes of the commands. -/
def nodesOf (l : List ℕ) : List (ℕ × ℕ) := l.map fun id ↦ (id, id)

def contents (l : List ℕ) : Contents ℕ := ⟨⟨none, false, none⟩, nodesOf l⟩

@[simp] theorem addrs_nodesOf (l : List ℕ) : addrs (nodesOf l) = l := by
  simp [addrs, nodesOf, Function.comp_def]

@[simp] theorem nodesOf_append (l l' : List ℕ) : nodesOf (l ++ l') = nodesOf l ++ nodesOf l' :=
  List.map_append

@[simp] theorem nodesOf_nil : nodesOf [] = [] := rfl

@[simp] theorem nodesOf_cons (id : ℕ) (l : List ℕ) : nodesOf (id :: l) = (id, id) :: nodesOf l :=
  rfl

theorem head_contents (l : List ℕ) : (contents l).header.head = l.head? := by
  cases l <;> rfl

/-- The list has the commands `l`, while a caller is at `removal` with its node. -/
def Stands (h : Heap ℕ) (list : AdList ℕ) (l : List ℕ) : Removal → Prop
  | .idle | .looking => list = (contents l).header ∧ Held h (nodesOf l)
  | .found node => list = (contents l).header ∧ Held h (nodesOf l) ∧ node ∈ l
  | .forward node => ∃ L R, l = L ++ node :: R ∧ l.Nodup ∧
      Seg h.nodes none (nodesOf L) (first (nodesOf R) none) ∧
      h.nodes node = some ⟨last none (nodesOf L), first (nodesOf R) none, node⟩ ∧
      Seg h.nodes (some node) (nodesOf R) none ∧
      list = { (contents l).header with head := first (nodesOf (L ++ R)) none }
  | .backward node => ∃ L R, l = L ++ node :: R ∧ l.Nodup ∧
      Seg h.nodes none (nodesOf L) (first (nodesOf R) none) ∧
      h.nodes node = some ⟨last none (nodesOf L), first (nodesOf R) none, node⟩ ∧
      Seg h.nodes (last none (nodesOf L)) (nodesOf R) none ∧
      list = { (contents l).header with
        head := first (nodesOf (L ++ R)) none
        tail := last none (nodesOf (L ++ R)) }

variable {h h' : Heap ℕ} {list : AdList ℕ} {l : List ℕ} {removal : Removal} {node : ℕ}

theorem Stands.len (hs : Stands h list l removal) : list.len = l.length := by
  have hlen : (contents l).header.len = l.length := List.length_map ..
  cases removal with
  | idle | looking => exact (congrArg AdList.len hs.1).trans hlen
  | found node => exact (congrArg AdList.len hs.1).trans hlen
  | forward node =>
      obtain ⟨L, R, -, -, -, -, -, rfl⟩ := hs
      exact hlen
  | backward node =>
      obtain ⟨L, R, -, -, -, -, -, rfl⟩ := hs
      exact hlen

theorem held_congr (hheld : Held h (nodesOf l)) (heq : ∀ a ∈ l, h'.nodes a = h.nodes a) :
    Held h' (nodesOf l) :=
  ⟨hheld.seg.congr fun a ha ↦ heq a (by simpa using ha), hheld.nodup⟩

/-- Only the nodes of its own commands matter to a list. -/
theorem Stands.frame (hs : Stands h list l removal) (heq : ∀ a ∈ l, h'.nodes a = h.nodes a) :
    Stands h' list l removal := by
  have hpart : ∀ {L R : List ℕ} {node : ℕ}, l = L ++ node :: R →
      (∀ a ∈ addrs (nodesOf L), h'.nodes a = h.nodes a) ∧ h'.nodes node = h.nodes node ∧
        ∀ a ∈ addrs (nodesOf R), h'.nodes a = h.nodes a := by
    rintro L R node rfl
    refine ⟨fun a ha ↦ heq a ?_, heq node (by simp), fun a ha ↦ heq a ?_⟩
    · rw [addrs_nodesOf] at ha
      exact List.mem_append_left _ ha
    · rw [addrs_nodesOf] at ha
      exact List.mem_append_right _ (List.mem_cons_of_mem _ ha)
  cases removal with
  | idle | looking => exact ⟨hs.1, held_congr hs.2 heq⟩
  | found node => exact ⟨hs.1, held_congr hs.2.1 heq, hs.2.2⟩
  | forward node =>
      obtain ⟨L, R, hl, hnodup, hL, hnode, hR, hlist⟩ := hs
      obtain ⟨hL', hnode', hR'⟩ := hpart hl
      exact ⟨L, R, hl, hnodup, hL.congr hL', hnode'.trans hnode, hR.congr hR', hlist⟩
  | backward node =>
      obtain ⟨L, R, hl, hnodup, hL, hnode, hR, hlist⟩ := hs
      obtain ⟨hL', hnode', hR'⟩ := hpart hl
      exact ⟨L, R, hl, hnodup, hL.congr hL', hnode'.trans hnode, hR.congr hR', hlist⟩

theorem Stands.nodup (hs : Stands h list l removal) : l.Nodup := by
  have hnodup : Held h (nodesOf l) → l.Nodup := fun hheld ↦ by simpa using hheld.nodup
  cases removal with
  | idle | looking => exact hnodup hs.2
  | found node => exact hnodup hs.2.1
  | forward node | backward node =>
      obtain ⟨L, R, -, hnodup, -⟩ := hs
      exact hnodup

/-- The nodes are there, the one that is being deleted too. -/
theorem Stands.allocated {a : ℕ} (hs : Stands h list l removal) (ha : a ∈ l) :
    h.nodes a ≠ none := by
  have hin : ∀ {p n : Option ℕ} {L : List ℕ}, Seg h.nodes p (nodesOf L) n → a ∈ L →
      h.nodes a ≠ none := fun hseg hmem ↦ hseg.allocated (by simpa using hmem)
  have hparts : ∀ {p q n m : Option ℕ} {node : ℕ} {L R : List ℕ} {c : ListNode ℕ},
      l = L ++ node :: R → Seg h.nodes p (nodesOf L) n → h.nodes node = some c →
      Seg h.nodes q (nodesOf R) m → h.nodes a ≠ none := by
    rintro p q n m node L R c rfl hL hnode hR
    rcases List.mem_append.mp ha with hmem | hmem
    · exact hin hL hmem
    · rcases List.mem_cons.mp hmem with rfl | hmem
      · simp [hnode]
      · exact hin hR hmem
  cases removal with
  | idle | looking => exact hin hs.2.seg ha
  | found node => exact hin hs.2.1.seg ha
  | forward node | backward node =>
      obtain ⟨L, R, hl, -, hL, hnode, hR, -⟩ := hs
      exact hparts hl hL hnode hR

theorem reaches_nodesOf {p n : Option ℕ} {a : ℕ} (hseg : Seg h.nodes p (nodesOf l) n)
    (ha : a ∈ l) : Reaches h.nodes a (first (nodesOf l) n) := by
  obtain ⟨L, R, rfl⟩ := List.append_of_mem ha
  rw [nodesOf_append, nodesOf_cons] at hseg ⊢
  exact hseg.reaches

/-- The node that is not in the chain from the head any more. -/
def severed : Removal → Option ℕ
  | .forward node | .backward node => some node
  | .idle | .looking | .found _ => none

/-- Whoever goes along the list comes to its nodes, but for the one that is being deleted. -/
theorem Stands.reaches {a : ℕ} (hs : Stands h list l removal) (ha : a ∈ l)
    (hne : removal.severed ≠ some a) : Reaches h.nodes a list.head := by
  have hwhole : list = (contents l).header → Held h (nodesOf l) →
      Reaches h.nodes a list.head := by
    rintro rfl hheld
    exact reaches_nodesOf hheld.seg ha
  have hparts : ∀ {q : Option ℕ} {node : ℕ} {L R : List ℕ}, l = L ++ node :: R → node ≠ a →
      Seg h.nodes none (nodesOf L) (first (nodesOf R) none) → Seg h.nodes q (nodesOf R) none →
      Reaches h.nodes a (first (nodesOf (L ++ R)) none) := by
    rintro q node L R rfl hnode hL hR
    rw [nodesOf_append, Doubly.first_append]
    rcases List.mem_append.mp ha with hmem | hmem
    · exact reaches_nodesOf hL hmem
    · have hmem := (List.mem_cons.mp hmem).resolve_left hnode.symm
      exact (reaches_nodesOf hR hmem).of_seg hL
  cases removal with
  | idle | looking => exact hwhole hs.1 hs.2
  | found node => exact hwhole hs.1 hs.2.1
  | forward node | backward node =>
      obtain ⟨L, R, hl, -, hL, -, hR, rfl⟩ := hs
      exact hparts hl (fun heq ↦ hne (congrArg some heq)) hL hR

theorem nodup_parts {L R : List ℕ} (hnodup : (L ++ node :: R).Nodup) :
    L.Nodup ∧ R.Nodup ∧ node ∉ L ∧ node ∉ R ∧ L.Disjoint R := by
  obtain ⟨hL, hR, hapart⟩ := List.nodup_append'.mp hnodup
  obtain ⟨hnode, hR⟩ := List.nodup_cons.mp hR
  exact ⟨hL, hR, fun hmem ↦ hapart hmem List.mem_cons_self, hnode,
    List.disjoint_of_disjoint_cons_right hapart⟩

theorem Stands.delForward (hs : Stands h list l (.found node)) :
    ∃ h' list', Adlist.delForward h list node = some (h', list') ∧
      Stands h' list' l (.forward node) ∧ ∀ a ∉ l, h'.nodes a = h.nodes a := by
  obtain ⟨rfl, hheld, hmem⟩ := hs
  obtain ⟨L, R, rfl⟩ := List.append_of_mem hmem
  have hnodup : (L ++ node :: R).Nodup := by simpa using hheld.nodup
  obtain ⟨hnL, -, hnodeL, -, hapart⟩ := nodup_parts hnodup
  have hseg := hheld.seg
  rw [nodesOf_append, nodesOf_cons] at hseg
  obtain ⟨hL, hcell, hR⟩ := Doubly.seg_append.mp hseg
  obtain ⟨mem, hset, hL', hframe⟩ :=
    hL.setNext? (by simpa using hnL) (first (nodesOf R) none)
  refine ⟨{ h with nodes := mem }, _, ?_, ⟨L, R, rfl, hnodup, hL', ?_, ?_, rfl⟩, fun a ha ↦ ?_⟩
  · rw [Adlist.delForward, hcell, Option.bind_some, hset, Option.map_some]
    simp only [contents, Contents.header, nodesOf_append, nodesOf_cons, Doubly.first_append,
      Doubly.first_cons, head_removed]
  · exact (hframe node (by simpa using hnodeL)).trans hcell
  · exact hR.congr fun a ha ↦ hframe a fun ha' ↦ hapart (by simpa using ha') (by simpa using ha)
  · exact hframe a fun ha' ↦ ha (List.mem_append_left _ (by simpa using ha'))

theorem Stands.delBackward (hs : Stands h list l (.forward node)) :
    ∃ h' list', Adlist.delBackward h list node = some (h', list') ∧
      Stands h' list' l (.backward node) ∧ ∀ a ∉ l, h'.nodes a = h.nodes a := by
  obtain ⟨L, R, rfl, hnodup, hL, hcell, hR, rfl⟩ := hs
  obtain ⟨-, hnR, -, hnodeR, hapart⟩ := nodup_parts hnodup
  obtain ⟨mem, hset, hR', hframe⟩ := hR.setPrev? (by simpa using hnR) (last none (nodesOf L))
  refine ⟨{ h with nodes := mem }, _, ?_, ⟨L, R, rfl, hnodup, ?_, ?_, hR', rfl⟩, fun a ha ↦ ?_⟩
  · rw [Adlist.delBackward, hcell, Option.bind_some, hset, Option.map_some]
    simp only [contents, Contents.header, nodesOf_append, nodesOf_cons, Doubly.last_append,
      Doubly.last_cons, tail_removed]
  · exact hL.congr fun a ha ↦ hframe a fun ha' ↦ hapart (by simpa using ha) (by simpa using ha')
  · exact (hframe node (by simpa using hnodeR)).trans hcell
  · exact hframe a fun ha' ↦
      ha (List.mem_append_right _ (List.mem_cons_of_mem _ (by simpa using ha')))

theorem Stands.delFree (hs : Stands h list l (.backward node)) :
    ∃ h' list', Adlist.delFree h list node = some (h', list') ∧
      Stands h' list' (l.erase node) .idle ∧ ∀ a ∉ l, h'.nodes a = h.nodes a := by
  obtain ⟨L, R, rfl, hnodup, hL, hcell, hR, rfl⟩ := hs
  obtain ⟨-, -, hnodeL, hnodeR, -⟩ := nodup_parts hnodup
  have herase : (L ++ node :: R).erase node = L ++ R := by
    rw [List.erase_append_right _ hnodeL, List.erase_cons_head]
  rw [herase]
  refine ⟨h.freeNode false node node, (contents (L ++ R)).header, ?_, ⟨rfl, ?_, ?_⟩,
    fun a ha ↦ ?_⟩
  · rw [Adlist.delFree, hcell, Option.map_some]
    simp only [contents, Contents.header, nodesOf_append, nodesOf_cons, List.length_append,
      List.length_cons]
    rfl
  · rw [nodesOf_append]
    refine Doubly.seg_append.mpr ⟨?_, ?_⟩
    · exact hL.update (by simpa using hnodeL) _
    · exact hR.update (by simpa using hnodeR) _
  · rw [addrs_nodesOf]
    exact (List.nodup_middle.mp hnodup).of_cons
  · have hne : a ≠ node := by
      rintro rfl
      simp at ha
    exact Function.update_of_ne hne _ _

/-- The three statements in a row are `listDelNode`. -/
theorem listDelNode_statements (hheld : Held h (nodesOf l)) (hmem : node ∈ l) :
    (Adlist.delForward h (contents l).header node).bind (fun r ↦
      (Adlist.delBackward r.1 r.2 node).bind fun r ↦ Adlist.delFree r.1 r.2 node) =
      listDelNode h (contents l).header node := by
  obtain ⟨L, R, rfl⟩ := List.append_of_mem hmem
  have hnodup : (L ++ node :: R).Nodup := by simpa using hheld.nodup
  obtain ⟨hnL, hnR, hnodeL, hnodeR, hapart⟩ := nodup_parts hnodup
  have hseg := hheld.seg
  rw [nodesOf_append, nodesOf_cons] at hseg
  obtain ⟨hL, hcell, hR⟩ := Doubly.seg_append.mp hseg
  obtain ⟨mem₁, hset₁, -, hframe₁⟩ := hL.setNext? (by simpa using hnL) (first (nodesOf R) none)
  have hR₁ : Seg mem₁ (some node) (nodesOf R) none := hR.congr fun a ha ↦
    hframe₁ a fun ha' ↦ hapart (by simpa using ha') (by simpa using ha)
  obtain ⟨mem₂, hset₂, -, hframe₂⟩ := hR₁.setPrev? (by simpa using hnR) (last none (nodesOf L))
  have hcell₁ := (hframe₁ node (by simpa using hnodeL)).trans hcell
  have hcell₂ := (hframe₂ node (by simpa using hnodeR)).trans hcell₁
  simp only [Adlist.delForward, Adlist.delBackward, Adlist.delFree, listDelNode, hcell, hset₁,
    hcell₁, hset₂, hcell₂, Option.bind_some, Option.map_some]

theorem listAddNodeTail_nodes (hheld : Held h (nodesOf l)) (hnode : h.nodes node = none) :
    ∃ h', listAddNodeTail h (contents l).header node (some node) =
        some (h', (contents (l ++ [node])).header, true) ∧
      Held h' (nodesOf (l ++ [node])) ∧
      ∀ a, a ∉ l → a ≠ node → h'.nodes a = h.nodes a := by
  obtain ⟨h', hadd, hchanged⟩ := listAddNodeTail_spec (c := contents l) hheld hnode node
  refine ⟨h', ?_, ?_, fun a ha hne ↦ hchanged.frame a (by simpa [contents] using ha) ?_⟩
  · rw [hadd]
    simp [contents]
  · rw [nodesOf_append]
    exact hchanged.held
  · simp [contents, ha, hne]

theorem find_nodesOf (l : List ℕ) (key : ℕ) :
    ((nodesOf l).find? fun x ↦ (contents l).toMethods.keyMatches key x.2).map Prod.fst =
      if key ∈ l then some key else none := by
  have hmatches : ∀ v, (contents l).toMethods.keyMatches key v = decide (key = v) := fun _ ↦ rfl
  simp only [hmatches]
  clear hmatches
  induction l with
  | nil => rfl
  | cons id l ih =>
      by_cases hid : key = id
      · simp [hid]
      · simp [hid, ih]

theorem listSearchKey_nodes (hheld : Held h (nodesOf l)) (key : ℕ) :
    listSearchKey h (contents l).header key = some (if key ∈ l then some key else none) := by
  rw [listSearchKey_spec (c := contents l) hheld, ← find_nodesOf l key]
  rfl

theorem listDelNode_nodes (hheld : Held h (nodesOf (node :: l))) :
    (∃ cell, h.nodes node = some cell ∧ cell.value = node ∧ cell.next = first (nodesOf l) none) ∧
      ∃ h', listDelNode h (contents (node :: l)).header node = some (h', (contents l).header) ∧
        Held h' (nodesOf l) ∧ ∀ a ∉ node :: l, h'.nodes a = h.nodes a := by
  have hnodes : (contents (node :: l)).nodes = [] ++ (node, node) :: nodesOf l := rfl
  obtain ⟨h', hdel, hchanged⟩ := listDelNode_spec hnodes hheld
  refine ⟨⟨_, hheld.seg.1, rfl, rfl⟩, h', hdel, hchanged.held, fun a ha ↦ ?_⟩
  rw [List.mem_cons, not_or] at ha
  exact hchanged.frame a (by simp [contents, ha]) (by simp [ha.2])

end Removal

end MuxHiredis
