import MuxHiredis.Lib.Doubly

/-!
# Linked lists

The functions of `list.c`.  A heap holds the nodes, and the values given to `free` methods
in their order; reading or writing at no node has no result.
-/

namespace MuxHiredis

namespace Adlist

open Doubly (Cell first last addrs Seg Frame setPrev setNext setPrev? setNext?)

abbrev ListNode (V : Type*) := Cell ℕ V

structure Heap (V : Type*) where
  nodes : ℕ → Option (ListNode V)
  freed : List V

structure Methods (V : Type*) where
  dup : Option (V → Option V)
  free : Bool
  matchKey : Option (V → V → Bool)

/-- `list` -/
structure AdList (V : Type*) extends Methods V where
  head : Option ℕ
  tail : Option ℕ
  len : ℕ

variable {V : Type*}

def Heap.deref (h : Heap V) (p : Option ℕ) : Option (ListNode V) := p.bind h.nodes

/-- `free(node)`, with the `free` method before it. -/
def Heap.freeNode (h : Heap V) (free : Bool) (a : ℕ) (value : V) : Heap V :=
  ⟨Function.update h.nodes a none, if free then h.freed ++ [value] else h.freed⟩

def AdList.empty : AdList V := ⟨⟨none, false, none⟩, none, none, 0⟩

/-- `malloc` is false for `NULL`. -/
def listCreate (malloc : Bool) : Option (AdList V) := if malloc then some .empty else none

/-- `while(len--)` -/
def emptyLoop (free : Bool) : ℕ → Heap V → Option ℕ → Option (Heap V)
  | 0, h, _ => some h
  | len + 1, h, current =>
      current.bind fun a ↦ (h.nodes a).bind fun c ↦
        emptyLoop free len (h.freeNode free a c.value) c.next

def listEmpty (h : Heap V) (list : AdList V) : Option (Heap V × AdList V) :=
  (emptyLoop list.free list.len h list.head).map fun h ↦
    (h, { list with head := none, tail := none, len := 0 })

def listRelease (h : Heap V) (list : AdList V) : Option (Heap V) :=
  (listEmpty h list).map Prod.fst

/-- `node` is the result of `malloc`; the last component is false for `NULL`. -/
def listAddNodeHead (h : Heap V) (list : AdList V) (value : V) :
    Option ℕ → Option (Heap V × AdList V × Bool)
  | none => some (h, list, false)
  | some node =>
      if list.len = 0 then
        some ({ h with nodes := Function.update h.nodes node (some ⟨none, none, value⟩) },
          { list with head := some node, tail := some node, len := list.len + 1 }, true)
      else
        let nodes := Function.update h.nodes node (some ⟨none, list.head, value⟩)
        (setPrev nodes list.head (some node)).map fun nodes ↦
          ({ h with nodes := nodes }, { list with head := some node, len := list.len + 1 }, true)

def listAddNodeTail (h : Heap V) (list : AdList V) (value : V) :
    Option ℕ → Option (Heap V × AdList V × Bool)
  | none => some (h, list, false)
  | some node =>
      if list.len = 0 then
        some ({ h with nodes := Function.update h.nodes node (some ⟨none, none, value⟩) },
          { list with head := some node, tail := some node, len := list.len + 1 }, true)
      else
        let nodes := Function.update h.nodes node (some ⟨list.tail, none, value⟩)
        (setNext nodes list.tail (some node)).map fun nodes ↦
          ({ h with nodes := nodes }, { list with tail := some node, len := list.len + 1 }, true)

def listInsertNode (h : Heap V) (list : AdList V) (old_node : Option ℕ) (value : V)
    (after : Bool) : Option ℕ → Option (Heap V × AdList V × Bool)
  | none => some (h, list, false)
  | some node =>
      (h.deref old_node).bind fun old ↦
        let prev := if after then old_node else old.prev
        let next := if after then old.next else old_node
        let tail := if after ∧ list.tail = old_node then some node else list.tail
        let head := if ¬after ∧ list.head = old_node then some node else list.head
        let nodes := Function.update h.nodes node (some ⟨prev, next, value⟩)
        (setNext? nodes prev (some node)).bind fun nodes ↦
          (setPrev? nodes next (some node)).map fun nodes ↦
            ({ h with nodes := nodes },
              { list with head := head, tail := tail, len := list.len + 1 }, true)

def listDelNode (h : Heap V) (list : AdList V) (node : ℕ) : Option (Heap V × AdList V) :=
  (h.nodes node).bind fun c ↦
    (setNext? h.nodes c.prev c.next).bind fun nodes ↦
      (setPrev? nodes c.next c.prev).map fun nodes ↦
        (Heap.freeNode ⟨nodes, h.freed⟩ list.free node c.value,
          { list with
            head := if c.prev.isSome then list.head else c.next
            tail := if c.next.isSome then list.tail else c.prev
            len := list.len - 1 })

inductive Direction where
  | head
  | tail
  deriving DecidableEq

structure ListIter where
  next : Option ℕ
  direction : Direction

def listRewind (list : AdList V) : ListIter := ⟨list.head, .head⟩

def listRewindTail (list : AdList V) : ListIter := ⟨list.tail, .tail⟩

/-- What an iterator starts with. -/
def Direction.rewind (list : AdList V) : Direction → ListIter
  | .head => listRewind list
  | .tail => listRewindTail list

/-- `malloc` is false for `NULL`. -/
def listGetIterator (list : AdList V) (direction : Direction) (malloc : Bool) : Option ListIter :=
  if malloc then some (direction.rewind list) else none

def listNext (h : Heap V) (iter : ListIter) : Option (Option ℕ × ListIter) :=
  match iter.next with
  | none => some (none, iter)
  | some a =>
      (h.nodes a).map fun c ↦
        (some a, { iter with next := if iter.direction = .head then c.next else c.prev })

/-- The value of a copy. -/
def Methods.dupValue (m : Methods V) (value : V) : Option V :=
  match m.dup with
  | some dup => dup value
  | none => some value

/-- The loop of `listDup`, with the results of `malloc` in their order; the last component
is false when there is no copy. -/
def dupLoop : ℕ → Heap V → AdList V → ListIter → List (Option ℕ) →
    Option (Heap V × AdList V × Bool)
  | 0, _, _, _, _ => none
  | fuel + 1, h, copy, iter, mallocs =>
      (listNext h iter).bind fun r ↦
        match r.1 with
        | none => some (h, copy, true)
        | some a =>
            (h.nodes a).bind fun c ↦
              match copy.dupValue c.value with
              | none => (listRelease h copy).map fun h ↦ (h, copy, false)
              | some value =>
                  (listAddNodeTail h copy value (mallocs.headD none)).bind fun t ↦
                    if t.2.2 then dupLoop fuel t.1 t.2.1 r.2 mallocs.tail
                    else (listRelease t.1 t.2.1).map fun h ↦ (h, copy, false)

/-- `header` is the first result of `malloc`. -/
def listDup (h : Heap V) (orig : AdList V) (header : Bool) (mallocs : List (Option ℕ)) :
    Option (Heap V × Option (AdList V)) :=
  match (listCreate header : Option (AdList V)) with
  | none => some (h, none)
  | some copy =>
      let copy := { copy with toMethods := orig.toMethods }
      (dupLoop (orig.len + 1) h copy (listRewind orig) mallocs).map fun r ↦
        (r.1, if r.2.2 then some r.2.1 else none)

/-- The value of a node is the key that is searched. -/
def Methods.keyMatches [DecidableEq V] (m : Methods V) (key value : V) : Bool :=
  match m.matchKey with
  | some matchKey => matchKey value key
  | none => key = value

def searchLoop [DecidableEq V] (m : Methods V) (key : V) :
    ℕ → Heap V → ListIter → Option (Option ℕ)
  | 0, _, _ => none
  | fuel + 1, h, iter =>
      (listNext h iter).bind fun r ↦
        match r.1 with
        | none => some none
        | some a =>
            (h.nodes a).bind fun c ↦
              if m.keyMatches key c.value then some (some a) else searchLoop m key fuel h r.2

def listSearchKey [DecidableEq V] (h : Heap V) (list : AdList V) (key : V) : Option (Option ℕ) :=
  searchLoop list.toMethods key (list.len + 1) h (listRewind list)

/-- `while(index-- && n)` -/
def indexLoop (h : Heap V) (direction : Direction) : ℕ → Option ℕ → Option (Option ℕ)
  | 0, n => some n
  | _ + 1, none => some none
  | index + 1, some a =>
      (h.nodes a).bind fun c ↦
        indexLoop h direction index (if direction = .head then c.next else c.prev)

def listIndex (h : Heap V) (list : AdList V) (index : ℤ) : Option (Option ℕ) :=
  if index < 0 then indexLoop h .tail (-index - 1).toNat list.tail
  else indexLoop h .head index.toNat list.head

def listRotate (h : Heap V) (list : AdList V) : Option (Heap V × AdList V) :=
  if list.len ≤ 1 then some (h, list)
  else
    (h.deref list.tail).bind fun c ↦
      (setNext h.nodes c.prev none).bind fun nodes ↦
        (setPrev nodes list.head list.tail).bind fun nodes ↦
          (setPrev nodes list.tail none).bind fun nodes ↦
            (setNext nodes list.tail list.head).map fun nodes ↦
              ({ h with nodes := nodes }, { list with head := list.tail, tail := c.prev })

def listJoin (h : Heap V) (l o : AdList V) : Option (Heap V × AdList V × AdList V) :=
  (setPrev? h.nodes o.head l.tail).bind fun nodes ↦
    (setNext? nodes l.tail o.head).map fun nodes ↦
      ({ h with nodes := nodes },
        { l with
          head := if l.tail.isSome then l.head else o.head
          tail := o.tail
          len := l.len + o.len },
        { o with head := none, tail := none, len := 0 })

/-! ## What a list holds -/

structure Contents (V : Type*) extends Methods V where
  nodes : List (ℕ × V)

def Contents.header (c : Contents V) : AdList V :=
  { c with head := first c.nodes none, tail := last none c.nodes, len := c.nodes.length }

/-- The nodes of the list are in the heap. -/
structure Held (h : Heap V) (l : List (ℕ × V)) : Prop where
  seg : Seg h.nodes none l none
  nodup : (addrs l).Nodup

/-- The nodes of `l` have become those of `l'`, and the `free` method was given `freed`. -/
structure Changed (h h' : Heap V) (l l' : List (ℕ × V)) (freed : List V) : Prop where
  held : Held h' l'
  frame : ∀ a, a ∉ addrs l → a ∉ addrs l' → h'.nodes a = h.nodes a
  gone : ∀ a ∈ addrs l, a ∉ addrs l' → h'.nodes a = none
  fresh : ∀ a ∈ addrs l', a ∉ addrs l → h.nodes a = none
  freed : h'.freed = h.freed ++ freed

variable {h : Heap V} {c : Contents V} {L R l : List (ℕ × V)} {a : ℕ} {v : V}

theorem Held.changed_refl (hheld : Held h l) : Changed h h l l [] where
  held := hheld
  frame := fun _ _ _ ↦ rfl
  gone := fun _ ha hnot ↦ absurd ha hnot
  fresh := fun _ ha hnot ↦ absurd ha hnot
  freed := (List.append_nil _).symm

theorem Held.not_mem (hheld : Held h l) (ha : h.nodes a = none) : a ∉ addrs l :=
  fun hmem ↦ hheld.seg.allocated hmem ha

theorem Held.insert (hheld : Held h (L ++ R)) (ha : h.nodes a = none) (v : V) :
    ∃ mem₁ mem₂, setNext? (Function.update h.nodes a (some ⟨last none L, first R none, v⟩))
          (last none L) (some a) = some mem₁ ∧
        setPrev? mem₁ (first R none) (some a) = some mem₂ ∧
        Changed h ⟨mem₂, h.freed⟩ (L ++ R) (L ++ (a, v) :: R) [] := by
  have hnot := hheld.not_mem ha
  obtain ⟨mem₁, mem₂, hset₁, hset₂, hseg, hframe⟩ := hheld.seg.insert hheld.nodup hnot v
  have haddrs : (addrs (L ++ (a, v) :: R)).Perm (a :: addrs (L ++ R)) := by
    simp only [Doubly.addrs_append, Doubly.addrs_cons]
    exact List.perm_middle
  refine ⟨mem₁, mem₂, hset₁, hset₂, ⟨hseg, ?_⟩, fun b hb hb' ↦ ?_, fun b hb hb' ↦ ?_,
    fun b hb hb' ↦ ?_, (List.append_nil _).symm⟩
  · rw [haddrs.nodup_iff]
    exact List.nodup_cons.mpr ⟨hnot, hheld.nodup⟩
  · rw [haddrs.mem_iff] at hb'
    exact hframe b (fun heq ↦ hb' (heq ▸ List.mem_cons_self)) hb
  · exact absurd (haddrs.mem_iff.mpr (List.mem_cons_of_mem _ hb)) hb'
  · rcases List.mem_cons.mp (haddrs.mem_iff.mp hb) with rfl | hb
    · exact ha
    · exact absurd hb hb'

theorem first_eq_some (hne : l ≠ []) : ∃ b, first l none = some b :=
  Option.ne_none_iff_exists'.mp (mt Doubly.first_eq_none.mp hne)

theorem last_eq_some (hne : l ≠ []) : ∃ b, last none l = some b :=
  Option.ne_none_iff_exists'.mp (mt Doubly.last_eq_none.mp hne)

theorem header_len_ne_zero (hne : c.nodes ≠ []) : c.header.len ≠ 0 :=
  mt List.length_eq_zero_iff.mp hne

theorem listAddNodeHead_spec (hheld : Held h c.nodes) (ha : h.nodes a = none) (v : V) :
    ∃ h', listAddNodeHead h c.header v (some a) =
        some (h', { c with nodes := (a, v) :: c.nodes }.header, true) ∧
      Changed h h' c.nodes ((a, v) :: c.nodes) [] := by
  obtain ⟨mem₁, mem₂, hset₁, hset₂, hchanged⟩ := Held.insert (L := []) hheld ha v
  refine ⟨⟨mem₂, h.freed⟩, ?_, hchanged⟩
  obtain rfl := Option.some.inj hset₁
  by_cases hne : c.nodes = []
  · obtain ⟨m, nodes⟩ := c
    subst hne
    obtain rfl := Option.some.inj hset₂
    rfl
  · obtain ⟨b, hb⟩ := first_eq_some hne
    have hset : setPrev (Function.update h.nodes a (some ⟨none, some b, v⟩)) (some b)
        (some a) = some mem₂ := by
      rw [hb] at hset₂
      exact hset₂
    have hlast : last none ((a, v) :: c.nodes) = last none c.nodes := by
      obtain ⟨x, nodes, hnodes⟩ := List.exists_cons_of_ne_nil hne
      rw [hnodes]
      rfl
    rw [listAddNodeHead, if_neg (header_len_ne_zero hne)]
    simp only [Contents.header, hb, hset, hlast, List.length_cons, Option.map_some]
    rfl

theorem listAddNodeTail_spec (hheld : Held h c.nodes) (ha : h.nodes a = none) (v : V) :
    ∃ h', listAddNodeTail h c.header v (some a) =
        some (h', { c with nodes := c.nodes ++ [(a, v)] }.header, true) ∧
      Changed h h' c.nodes (c.nodes ++ [(a, v)]) [] := by
  have hheld' : Held h (c.nodes ++ []) := by rwa [List.append_nil]
  obtain ⟨mem₁, mem₂, hset₁, hset₂, hchanged⟩ := hheld'.insert ha v
  rw [List.append_nil] at hchanged
  refine ⟨⟨mem₂, h.freed⟩, ?_, hchanged⟩
  obtain rfl := Option.some.inj hset₂
  by_cases hne : c.nodes = []
  · obtain ⟨m, nodes⟩ := c
    subst hne
    obtain rfl := Option.some.inj hset₁
    rfl
  · obtain ⟨b, hb⟩ := last_eq_some hne
    have hset : setNext (Function.update h.nodes a (some ⟨some b, none, v⟩)) (some b)
        (some a) = some mem₁ := by
      rw [hb] at hset₁
      exact hset₁
    have hfirst : first (c.nodes ++ [(a, v)]) none = first c.nodes none := by
      obtain ⟨x, nodes, hnodes⟩ := List.exists_cons_of_ne_nil hne
      rw [hnodes]
      rfl
    rw [listAddNodeTail, if_neg (header_len_ne_zero hne)]
    simp only [Contents.header, hb, hset, hfirst, Doubly.last_append, last, List.length_append,
      List.length_singleton, Option.map_some]

/-- The tail moves when the node before the new one was the tail. -/
theorem tail_after (ha : a ∉ addrs R) (node : ℕ) :
    (if last (some a) R = some a then some node else last (some a) R) = last (some node) R := by
  cases R using List.reverseRecOn with
  | nil => exact if_pos rfl
  | append_singleton R x =>
      rw [Doubly.last_append, Doubly.last_append]
      apply if_neg
      intro heq
      rw [Doubly.addrs_append] at ha
      apply ha
      rw [← Option.some.inj heq]
      exact List.mem_append_right _ List.mem_cons_self

/-- The head moves when the node behind the new one was the head. -/
theorem head_before (ha : a ∉ addrs L) (node : ℕ) :
    (if first L (some a) = some a then some node else first L (some a)) =
      first L (some node) := by
  cases L with
  | nil => exact if_pos rfl
  | cons x L =>
      apply if_neg
      intro heq
      apply ha
      rw [← Option.some.inj heq]
      exact List.mem_cons_self

theorem listInsertNode_spec (hnodes : c.nodes = L ++ (a, v) :: R) (hheld : Held h c.nodes)
    {node : ℕ} (hnode : h.nodes node = none) (w : V) (after : Bool) :
    let nodes := if after then L ++ (a, v) :: (node, w) :: R else L ++ (node, w) :: (a, v) :: R
    ∃ h', listInsertNode h c.header (some a) w after (some node) =
        some (h', { c with nodes := nodes }.header, true) ∧
      Changed h h' c.nodes nodes [] := by
  obtain ⟨m, nodes⟩ := c
  subst hnodes
  have hcell := hheld.seg.cell
  obtain ⟨-, hnaR, hapart⟩ := Doubly.nodup_addrs_append.mp hheld.nodup
  have haR : a ∉ addrs R := (List.nodup_cons.mp hnaR).1
  have haL : a ∉ addrs L := fun hmem ↦ hapart hmem List.mem_cons_self
  have hlen : ∀ x : ℕ × V, (L ++ x :: (a, v) :: R).length = (L ++ (a, v) :: R).length + 1 ∧
      (L ++ (a, v) :: x :: R).length = (L ++ (a, v) :: R).length + 1 := by
    intro x
    simp only [List.length_append, List.length_cons]
    omega
  rw [listInsertNode, Heap.deref, Option.bind_some, hcell, Option.bind_some]
  cases after with
  | true =>
      have hsplit : ∀ l, L ++ (a, v) :: l = (L ++ [(a, v)]) ++ l := List.append_cons _ _
      rw [show (⟨m, L ++ (a, v) :: R⟩ : Contents V).nodes = (L ++ [(a, v)]) ++ R from
        hsplit R] at hheld
      obtain ⟨mem₁, mem₂, hset₁, hset₂, hchanged⟩ := hheld.insert hnode w
      rw [← hsplit, ← hsplit] at hchanged
      refine ⟨⟨mem₂, h.freed⟩, ?_, hchanged⟩
      rw [Doubly.last_append] at hset₁
      simp only [Contents.header, Doubly.first_append, Doubly.last_append, Doubly.last_cons,
        Doubly.first_cons, Doubly.last_nil, if_true, true_and, not_true, false_and, if_false,
        tail_after haR, (hlen _).2] at hset₁ hset₂ ⊢
      rw [hset₁, Option.bind_some, hset₂]
      rfl
  | false =>
      obtain ⟨mem₁, mem₂, hset₁, hset₂, hchanged⟩ := hheld.insert hnode w
      refine ⟨⟨mem₂, h.freed⟩, ?_, hchanged⟩
      simp only [Contents.header, Doubly.first_append, Doubly.last_append, Doubly.last_cons,
        Doubly.first_cons, Bool.false_eq_true, not_false_eq_true, true_and, false_and, if_false,
        head_before haL, (hlen _).1] at hset₁ hset₂ ⊢
      rw [hset₁, Option.bind_some, hset₂]
      rfl

theorem head_removed (L R : List (ℕ × V)) (a : ℕ) :
    (if (last none L).isSome then first L (some a) else first R none) =
      first L (first R none) := by
  cases L using List.reverseRecOn with
  | nil => rfl
  | append_singleton L x =>
      rw [Doubly.last_append, Doubly.first_append, Doubly.first_append]
      cases L <;> rfl

theorem tail_removed (L R : List (ℕ × V)) (a : ℕ) :
    (if (first R none).isSome then last (some a) R else last none L) = last (last none L) R := by
  cases R <;> rfl

theorem listDelNode_spec (hnodes : c.nodes = L ++ (a, v) :: R) (hheld : Held h c.nodes) :
    ∃ h', listDelNode h c.header a = some (h', { c with nodes := L ++ R }.header) ∧
      Changed h h' c.nodes (L ++ R) (if c.free then [v] else []) := by
  obtain ⟨m, nodes⟩ := c
  subst hnodes
  have hcell := hheld.seg.cell
  obtain ⟨mem₁, mem₂, hset₁, hset₂, hseg, hframe⟩ := hheld.seg.remove hheld.nodup
  have haddrs : (addrs (L ++ (a, v) :: R)).Perm (a :: addrs (L ++ R)) := by
    simp only [Doubly.addrs_append, Doubly.addrs_cons]
    exact List.perm_middle
  have hnodup := hheld.nodup
  rw [haddrs.nodup_iff, List.nodup_cons] at hnodup
  refine ⟨Heap.freeNode ⟨mem₂, h.freed⟩ m.free a v, ?_, ⟨hseg, hnodup.2⟩, fun b hb hb' ↦ ?_,
    fun b hb hb' ↦ ?_, fun b hb hb' ↦ ?_, ?_⟩
  · rw [listDelNode, hcell, Option.bind_some, hset₁, Option.bind_some, hset₂, Option.map_some]
    simp only [Contents.header, Doubly.first_append, Doubly.last_append, Doubly.last_cons,
      Doubly.first_cons, head_removed, tail_removed, List.length_append, List.length_cons]
    rfl
  · have hne : b ≠ a := fun heq ↦ hb (haddrs.mem_iff.mpr (heq ▸ List.mem_cons_self))
    exact (Function.update_of_ne hne _ _).trans (hframe b hb)
  · rcases List.mem_cons.mp (haddrs.mem_iff.mp hb) with rfl | hb
    · exact Function.update_self _ _ _
    · exact absurd hb hb'
  · exact absurd (haddrs.mem_iff.mpr (List.mem_cons_of_mem _ hb)) hb'
  · rw [Heap.freeNode]
    split_ifs
    · rfl
    · exact (List.append_nil _).symm

/-- The loop, by induction on the nodes; the pointer backward of the first one dangles. -/
theorem emptyLoop_spec (free : Bool) {p : Option ℕ} (hseg : Seg h.nodes p l none)
    (hnodup : (addrs l).Nodup) :
    ∃ h', emptyLoop free l.length h (first l none) = some h' ∧
      (∀ a ∈ addrs l, h'.nodes a = none) ∧ (∀ a ∉ addrs l, h'.nodes a = h.nodes a) ∧
      h'.freed = h.freed ++ if free then l.map Prod.snd else [] := by
  induction l generalizing h p with
  | nil =>
      refine ⟨h, rfl, fun a ha ↦ absurd ha List.not_mem_nil, fun a _ ↦ rfl, ?_⟩
      split_ifs <;> exact (List.append_nil _).symm
  | cons x l ih =>
      obtain ⟨hx, hl⟩ := List.nodup_cons.mp hnodup
      obtain ⟨h', hrun, hgone, hsame, hfreed⟩ :=
        ih (h := h.freeNode free x.1 x.2) (hseg.2.update hx none) hl
      refine ⟨h', ?_, fun a ha ↦ ?_, fun a ha ↦ ?_, ?_⟩
      · rw [List.length_cons, Doubly.first_cons, emptyLoop, Option.bind_some, hseg.1,
          Option.bind_some, hrun]
      · rcases List.mem_cons.mp ha with rfl | ha
        · rw [hsame _ hx]
          exact Function.update_self _ _ _
        · exact hgone a ha
      · obtain ⟨hne, ha⟩ := List.ne_and_not_mem_of_not_mem_cons ha
        rw [hsame a ha]
        exact Function.update_of_ne hne _ _
      · rw [hfreed, Heap.freeNode]
        split_ifs <;> simp

theorem listEmpty_spec (hheld : Held h c.nodes) :
    ∃ h', listEmpty h c.header = some (h', { c with nodes := [] }.header) ∧
      Changed h h' c.nodes [] (if c.free then c.nodes.map Prod.snd else []) := by
  obtain ⟨h', hrun, hgone, hsame, hfreed⟩ := emptyLoop_spec c.free hheld.seg hheld.nodup
  have hrun : emptyLoop c.header.free c.header.len h c.header.head = some h' := hrun
  refine ⟨h', ?_, ⟨trivial, List.nodup_nil⟩, fun a ha _ ↦ hsame a ha, fun a ha _ ↦ hgone a ha,
    fun a ha ↦ absurd ha List.not_mem_nil, hfreed⟩
  rw [listEmpty, hrun]
  rfl

theorem listRelease_spec (hheld : Held h c.nodes) :
    ∃ h', listRelease h c.header = some h' ∧
      Changed h h' c.nodes [] (if c.free then c.nodes.map Prod.snd else []) := by
  obtain ⟨h', hrun, hchanged⟩ := listEmpty_spec hheld
  refine ⟨h', ?_, hchanged⟩
  rw [listRelease, hrun]
  rfl

/-- The last element first. -/
def rotated (l : List (ℕ × V)) : List (ℕ × V) := l.getLast?.toList ++ l.dropLast

theorem rotated_concat (L : List (ℕ × V)) (x : ℕ × V) : rotated (L ++ [x]) = x :: L := by
  rw [rotated, List.getLast?_concat, List.dropLast_concat]
  rfl

theorem listRotate_spec (hheld : Held h c.nodes) :
    ∃ h', listRotate h c.header = some (h', { c with nodes := rotated c.nodes }.header) ∧
      Changed h h' c.nodes (rotated c.nodes) [] := by
  obtain ⟨m, nodes⟩ := c
  cases nodes using List.reverseRecOn with
  | nil => exact ⟨h, rfl, hheld.changed_refl⟩
  | append_singleton L x =>
      rw [rotated_concat]
      by_cases hne : L = []
      · subst hne
        exact ⟨h, rfl, hheld.changed_refl⟩
      · obtain ⟨mem₁, mem₂, mem₃, mem₄, hset₁, hset₂, hset₃, hset₄, hseg, hframe⟩ :=
          hheld.seg.rotate hheld.nodup hne
        have hcell := Seg.cell (a := x.1) (v := x.2) hheld.seg
        have haddrs : (addrs (x :: L)).Perm (addrs (L ++ [x])) :=
          (List.perm_append_singleton x L).symm.map _
        refine ⟨⟨mem₄, h.freed⟩, ?_, ⟨hseg, haddrs.nodup_iff.mpr hheld.nodup⟩,
          fun b hb _ ↦ hframe b hb, fun b hb hb' ↦ absurd (haddrs.mem_iff.mpr hb) hb',
          fun b hb hb' ↦ absurd (haddrs.mem_iff.mp hb) hb', (List.append_nil _).symm⟩
        have hpos := List.length_pos_iff.mpr hne
        have hlast : last (some x.1) L = last none L := by
          obtain ⟨y, L, rfl⟩ := List.exists_cons_of_ne_nil hne
          rfl
        have hfirst : first L (some x.1) = first L none := by
          obtain ⟨y, L, rfl⟩ := List.exists_cons_of_ne_nil hne
          rfl
        simp only [listRotate, Contents.header, Heap.deref, Doubly.first_append,
          Doubly.first_cons, Doubly.last_append, Doubly.last_cons, Doubly.last_nil,
          Option.bind_some, hcell, hset₁, hfirst, hset₂, hset₃, hset₄, hlast, Option.map_some,
          List.length_append, List.length_cons, List.length_nil]
        apply if_neg
        omega

/-! ## Two lists -/

theorem head_joined (L R : List (ℕ × V)) :
    (if (last none L).isSome then first L none else first R none) = first L (first R none) := by
  cases L using List.reverseRecOn with
  | nil => rfl
  | append_singleton L x =>
      rw [Doubly.last_append, Doubly.first_append, Doubly.first_append]
      cases L <;> rfl

theorem listJoin_header (h : Heap V) (c o : Contents V) :
    listJoin h c.header o.header =
      (setPrev? h.nodes (first o.nodes none) (last none c.nodes)).bind fun nodes ↦
        (setNext? nodes (last none c.nodes) (first o.nodes none)).map fun nodes ↦
          (⟨nodes, h.freed⟩,
            ⟨c.toMethods,
              if (last none c.nodes).isSome then first c.nodes none else first o.nodes none,
              last none o.nodes, c.nodes.length + o.nodes.length⟩,
            { o with nodes := [] }.header) := rfl

theorem listJoin_spec {o : Contents V} (hl : Held h c.nodes) (ho : Held h o.nodes)
    (hapart : (addrs c.nodes).Disjoint (addrs o.nodes)) (hne : o.nodes ≠ [] ∨ c.nodes = []) :
    ∃ h', listJoin h c.header o.header =
        some (h', { c with nodes := c.nodes ++ o.nodes }.header,
          { o with nodes := [] }.header) ∧
      Held h' (c.nodes ++ o.nodes) ∧
      (∀ b ∉ addrs (c.nodes ++ o.nodes), h'.nodes b = h.nodes b) ∧ h'.freed = h.freed := by
  have hnodup := Doubly.nodup_addrs_append.mpr ⟨hl.nodup, ho.nodup, hapart⟩
  obtain ⟨mem₁, mem₂, hset₁, hset₂, hseg, hframe⟩ := hl.seg.join ho.seg hnodup
  refine ⟨⟨mem₂, h.freed⟩, ?_, ⟨hseg, hnodup⟩, hframe, rfl⟩
  have htail : last none o.nodes = last (last none c.nodes) o.nodes := by
    rcases hne with hne | hne
    · obtain ⟨x, L, hnodes⟩ := List.exists_cons_of_ne_nil hne
      rw [hnodes]
      rfl
    · rw [hne]
      rfl
  rw [listJoin_header, hset₁, Option.bind_some, hset₂, Option.map_some, head_joined, htail,
    ← Doubly.first_append, ← Doubly.last_append, ← List.length_append]
  rfl

/-- Joining an empty list loses the tail of the other one, and adding there faults. -/
theorem listJoin_empty {o : Contents V} (ho : o.nodes = []) (hne : c.nodes ≠ [])
    (hheld : Held h c.nodes) :
    ∃ h' l' o', listJoin h c.header o.header = some (h', l', o') ∧
      ∀ v node, listAddNodeTail h' l' v (some node) = none := by
  obtain ⟨mem₁, hset, -, -⟩ := hheld.seg.setNext? hheld.nodup none
  have hlen : ¬c.nodes.length + o.nodes.length = 0 := by
    have hpos := List.length_pos_iff.mpr hne
    omega
  refine ⟨⟨mem₁, h.freed⟩,
    ⟨c.toMethods, if (last none c.nodes).isSome then first c.nodes none else first o.nodes none,
      none, c.nodes.length + o.nodes.length⟩, { o with nodes := [] }.header, ?_,
    fun v node ↦ if_neg hlen⟩
  rw [listJoin_header, ho]
  change (some h.nodes).bind _ = _
  rw [Option.bind_some, Doubly.first_nil, hset]
  rfl

/-! ## Two lists of one heap -/

/-- The other lists are left alone. -/
theorem Changed.other {h h' : Heap V} {l l' L : List (ℕ × V)} {freed : List V}
    (hchanged : Changed h h' l l' freed) (hheld : Held h L)
    (hapart : (addrs L).Disjoint (addrs l)) :
    Held h' L ∧ (addrs L).Disjoint (addrs l') := by
  have hnot : (addrs L).Disjoint (addrs l') := by
    intro a ha ha'
    by_cases hmem : a ∈ addrs l
    · exact hapart ha hmem
    · exact hheld.seg.allocated ha (hchanged.fresh a ha' hmem)
  refine ⟨⟨hheld.seg.congr fun a ha ↦ ?_, hheld.nodup⟩, hnot⟩
  exact hchanged.frame a (fun hmem ↦ hapart ha hmem) fun hmem ↦ hnot ha hmem

theorem Changed.trans {h h₁ h₂ : Heap V} {l l₁ l₂ : List (ℕ × V)} {freed freed' : List V}
    (h₁₂ : Changed h h₁ l l₁ freed) (h₂₃ : Changed h₁ h₂ l₁ l₂ freed') :
    Changed h h₂ l l₂ (freed ++ freed') where
  held := h₂₃.held
  frame := by
    intro a ha ha₂
    by_cases ha₁ : a ∈ addrs l₁
    · rw [h₂₃.gone a ha₁ ha₂, h₁₂.fresh a ha₁ ha]
    · rw [h₂₃.frame a ha₁ ha₂, h₁₂.frame a ha ha₁]
  gone := by
    intro a ha ha₂
    by_cases ha₁ : a ∈ addrs l₁
    · exact h₂₃.gone a ha₁ ha₂
    · rw [h₂₃.frame a ha₁ ha₂, h₁₂.gone a ha ha₁]
  fresh := by
    intro a ha₂ ha
    by_cases ha₁ : a ∈ addrs l₁
    · exact h₁₂.fresh a ha₁ ha
    · rw [← h₁₂.frame a ha ha₁, h₂₃.fresh a ha₂ ha₁]
  freed := by rw [h₂₃.freed, h₁₂.freed, List.append_assoc]

/-- What `listDup` copies, and whether it copies everything. -/
def copies (m : Methods V) : List (ℕ × V) → List (Option ℕ) → List (ℕ × V) × Bool
  | [], _ => ([], true)
  | x :: l, mallocs =>
      match m.dupValue x.2, mallocs.headD none with
      | some v, some a => ((a, v) :: (copies m l mallocs.tail).1, (copies m l mallocs.tail).2)
      | _, _ => ([], false)

/-- The results of `malloc` are no nodes of the heap, and no two are the same. -/
structure Fresh (h : Heap V) (mallocs : List (Option ℕ)) : Prop where
  unused : ∀ a, some a ∈ mallocs → h.nodes a = none
  nodup : (mallocs.filterMap id).Nodup

theorem listNext_head {L R : List (ℕ × V)} {x : ℕ × V} (hheld : Held h (L ++ x :: R)) :
    listNext h ⟨some x.1, .head⟩ = some (some x.1, ⟨first R none, .head⟩) ∧
      ∃ p, h.nodes x.1 = some ⟨p, first R none, x.2⟩ := by
  have hcell := Seg.cell (a := x.1) (v := x.2) hheld.seg
  refine ⟨?_, _, hcell⟩
  rw [listNext]
  simp only [hcell, Option.map_some, if_true]

theorem Changed.fresh_tail {h h' : Heap V} {l : List (ℕ × V)} {freed : List V} {a : ℕ} {v : V}
    {mallocs : List (Option ℕ)} (hchanged : Changed h h' l (l ++ [(a, v)]) freed)
    (hheld : Held h l) (hfresh : Fresh h mallocs) (hhead : mallocs.headD none = some a) :
    Fresh h' mallocs.tail := by
  obtain ⟨b, rest, rfl⟩ := List.exists_cons_of_ne_nil (show mallocs ≠ [] by rintro rfl; cases hhead)
  obtain rfl : b = some a := hhead
  have hnodup : (a :: rest.filterMap id).Nodup := hfresh.nodup
  rw [List.nodup_cons] at hnodup
  refine ⟨fun b hb ↦ ?_, hnodup.2⟩
  have hunused := hfresh.unused b (List.mem_cons_of_mem _ hb)
  have hne : b ≠ a := fun heq ↦ hnodup.1 (List.mem_filterMap.mpr ⟨some b, hb, congrArg some heq⟩)
  have hnot := hheld.not_mem hunused
  rw [hchanged.frame b hnot, hunused]
  rw [Doubly.addrs_append, List.mem_append]
  rintro (hmem | hmem)
  · exact hnot hmem
  · exact hne (List.mem_singleton.mp hmem)

/-- What the loop of `listDup` leaves: a copy, or the copy has been released. -/
structure Copied (h h' : Heap V) (c : Contents V) (list : AdList V) (copied : List (ℕ × V))
    (ok : Bool) : Prop where
  whole : ok = true → list = { c with nodes := c.nodes ++ copied }.header ∧
    Changed h h' c.nodes (c.nodes ++ copied) []
  released : ok = false →
    Changed h h' c.nodes [] (if c.free then (c.nodes ++ copied).map Prod.snd else [])

theorem dupLoop_released (hheld : Held h c.nodes) :
    ∃ h' list, (listRelease h c.header).map (fun h' ↦ (h', c.header, false)) =
      some (h', list, false) ∧ Copied h h' c list [] false := by
  obtain ⟨h', hrun, hchanged⟩ := listRelease_spec hheld
  refine ⟨h', c.header, by rw [hrun, Option.map_some], nofun, fun _ ↦ ?_⟩
  rwa [List.append_nil]

/-- The loop, by induction on the nodes that are left. -/
theorem dupLoop_spec {orig : List (ℕ × V)} (rest done : List (ℕ × V))
    (mallocs : List (Option ℕ)) (fuel : ℕ) (c : Contents V) (hsplit : orig = done ++ rest)
    (horig : Held h orig) (hheld : Held h c.nodes)
    (hapart : (addrs orig).Disjoint (addrs c.nodes)) (hfresh : Fresh h mallocs)
    (hfuel : rest.length < fuel) :
    ∃ h' list, dupLoop fuel h c.header ⟨first rest none, .head⟩ mallocs =
        some (h', list, (copies c.toMethods rest mallocs).2) ∧
      Copied h h' c list (copies c.toMethods rest mallocs).1
        (copies c.toMethods rest mallocs).2 := by
  induction rest generalizing h done mallocs fuel c with
  | nil =>
      obtain ⟨fuel, rfl⟩ := Nat.exists_eq_add_one_of_ne_zero (Nat.ne_of_gt hfuel)
      refine ⟨h, c.header, rfl, fun _ ↦ ?_, nofun⟩
      rw [copies, List.append_nil]
      exact ⟨rfl, hheld.changed_refl⟩
  | cons x rest ih =>
      obtain ⟨fuel, rfl⟩ := Nat.exists_eq_add_one_of_ne_zero
        (Nat.ne_of_gt (Nat.zero_lt_of_lt hfuel))
      subst hsplit
      obtain ⟨hnext, p, hcell⟩ := listNext_head horig
      rw [dupLoop, Doubly.first_cons, hnext, Option.bind_some]
      have hdup : c.header.dupValue x.2 = c.toMethods.dupValue x.2 := rfl
      simp only [hcell, Option.bind_some, hdup]
      cases hvalue : c.toMethods.dupValue x.2 with
      | none =>
          have hcopies : copies c.toMethods (x :: rest) mallocs = ([], false) := by
            rw [copies, hvalue]
          rw [hcopies]
          exact dupLoop_released hheld
      | some v =>
          cases hmalloc : mallocs.headD none with
          | none =>
              have hcopies : copies c.toMethods (x :: rest) mallocs = ([], false) := by
                rw [copies, hvalue, hmalloc]
              rw [hcopies]
              exact dupLoop_released hheld
          | some a =>
              have hcopies : copies c.toMethods (x :: rest) mallocs =
                  ((a, v) :: (copies c.toMethods rest mallocs.tail).1,
                    (copies c.toMethods rest mallocs.tail).2) := by
                rw [copies, hvalue, hmalloc]
              have hunused : h.nodes a = none := by
                apply hfresh.unused
                cases mallocs with
                | nil => cases hmalloc
                | cons b rest => exact List.mem_cons.mpr (Or.inl hmalloc.symm)
              obtain ⟨h₁, hrun₁, hchanged₁⟩ := listAddNodeTail_spec hheld hunused v
              obtain ⟨horig₁, hapart₁⟩ := hchanged₁.other horig hapart
              obtain ⟨h', list, hrun, hcopied⟩ := ih (done ++ [x]) mallocs.tail fuel
                { c with nodes := c.nodes ++ [(a, v)] } (List.append_cons _ _ _) horig₁
                hchanged₁.held hapart₁ (hchanged₁.fresh_tail hheld hfresh hmalloc)
                (Nat.lt_of_succ_lt_succ hfuel)
              have hsplit : ∀ l, c.nodes ++ (a, v) :: l = (c.nodes ++ [(a, v)]) ++ l :=
                List.append_cons _ _
              rw [hcopies]
              refine ⟨h', list, ?_, fun hok ↦ ?_, fun hok ↦ ?_⟩
              · simp only [hrun₁, Option.bind_some, if_true]
                exact hrun
              · obtain ⟨hlist, hchanged⟩ := hcopied.whole hok
                rw [hsplit]
                exact ⟨hlist, hchanged₁.trans hchanged⟩
              · rw [hsplit]
                exact hchanged₁.trans (hcopied.released hok)

theorem listDup_spec (c : Contents V) (mallocs : List (Option ℕ)) (hheld : Held h c.nodes)
    (hfresh : Fresh h mallocs) :
    ∃ h', listDup h c.header true mallocs =
        some (h', if (copies c.toMethods c.nodes mallocs).2 then
          some { c with nodes := (copies c.toMethods c.nodes mallocs).1 }.header else none) ∧
      if (copies c.toMethods c.nodes mallocs).2 then
        Changed h h' [] (copies c.toMethods c.nodes mallocs).1 []
      else
        Changed h h' [] []
          (if c.free then (copies c.toMethods c.nodes mallocs).1.map Prod.snd else []) := by
  have hempty : Held h ([] : List (ℕ × V)) := ⟨trivial, List.nodup_nil⟩
  obtain ⟨h', list, hrun, hcopied⟩ := dupLoop_spec c.nodes [] mallocs (c.nodes.length + 1)
    { c with nodes := [] } rfl hheld hempty (List.disjoint_nil_right _) hfresh
    (Nat.lt_succ_self _)
  have hdup : listDup h c.header true mallocs = (some (h', list,
      (copies c.toMethods c.nodes mallocs).2)).map fun r ↦
        (r.1, if r.2.2 then some r.2.1 else none) := by
    rw [← hrun]
    rfl
  rw [hdup, Option.map_some]
  cases hok : (copies c.toMethods c.nodes mallocs).2 with
  | true =>
      obtain ⟨rfl, hchanged⟩ := hcopied.whole hok
      exact ⟨h', rfl, hchanged⟩
  | false => exact ⟨h', rfl, hcopied.released hok⟩

end Adlist

end MuxHiredis
