import Mathlib.Data.List.Nodup
import Mathlib.Logic.Function.Basic
import Mathlib.Tactic

/-!
# Doubly linked cells

Cells have addresses and hold a pointer to each side.  `Seg mem p l n` says that the
cells of `l` stand in memory one behind the other, between the pointers `p` and `n`.
-/

namespace Doubly

structure Cell (A V : Type*) where
  prev : Option A
  next : Option A
  value : V
  deriving DecidableEq

variable {A V : Type*}

/-- The pointer to the first cell of the list, or to what is behind it. -/
def first : List (A × V) → Option A → Option A
  | [], n => n
  | x :: _, _ => some x.1

/-- The pointer to the last cell of the list, or to what is before it. -/
def last : Option A → List (A × V) → Option A
  | p, [] => p
  | _, x :: l => last (some x.1) l

def Seg (mem : A → Option (Cell A V)) : Option A → List (A × V) → Option A → Prop
  | _, [], _ => True
  | p, x :: l, n => mem x.1 = some ⟨p, first l n, x.2⟩ ∧ Seg mem (some x.1) l n

def addrs (l : List (A × V)) : List A := l.map Prod.fst

variable {mem mem' : A → Option (Cell A V)} {p q n m : Option A} {a : A} {v : V} {x : A × V}
  {l l' : List (A × V)}

@[simp] theorem addrs_nil : addrs ([] : List (A × V)) = [] := rfl

@[simp] theorem addrs_cons : addrs (x :: l) = x.1 :: addrs l := rfl

@[simp] theorem addrs_append : addrs (l ++ l') = addrs l ++ addrs l' := List.map_append

@[simp] theorem addrs_reverse : addrs l.reverse = (addrs l).reverse := List.map_reverse

@[simp] theorem first_nil : first ([] : List (A × V)) n = n := rfl

@[simp] theorem first_cons : first (x :: l) n = some x.1 := rfl

@[simp] theorem last_nil : last p ([] : List (A × V)) = p := rfl

@[simp] theorem last_cons : last p (x :: l) = last (some x.1) l := rfl

theorem first_append : first (l ++ l') n = first l (first l' n) := by
  cases l <;> rfl

theorem last_append : last p (l ++ l') = last (last p l) l' := by
  induction l generalizing p with
  | nil => rfl
  | cons x l ih => exact ih

theorem first_eq_none : first l none = none ↔ l = [] := by
  cases l <;> simp [first]

theorem last_eq_none : last none l = none ↔ l = [] := by
  cases l using List.reverseRecOn with
  | nil => simp [last]
  | append_singleton l x => simp [last_append, last]

theorem seg_append :
    Seg mem p (l ++ l') n ↔ Seg mem p l (first l' n) ∧ Seg mem (last p l) l' n := by
  induction l generalizing p with
  | nil => simp only [List.nil_append, Seg, last, true_and]
  | cons x l ih => simp only [List.cons_append, Seg, last, first_append, ih, and_assoc]

theorem Seg.congr (h : Seg mem p l n) (heq : ∀ a ∈ addrs l, mem' a = mem a) :
    Seg mem' p l n := by
  induction l generalizing p with
  | nil => exact trivial
  | cons x l ih =>
      refine ⟨(heq _ List.mem_cons_self).trans h.1, ih h.2 fun a ha ↦ ?_⟩
      exact heq a (List.mem_cons_of_mem _ ha)

/-- A cell of the list, with its neighbours. -/
theorem Seg.cell (h : Seg mem p (l ++ (a, v) :: l') n) :
    mem a = some ⟨last p l, first l' n, v⟩ :=
  (seg_append.mp h).2.1

theorem Seg.allocated (h : Seg mem p l n) (ha : a ∈ addrs l) : mem a ≠ none := by
  obtain ⟨⟨b, v⟩, hmem, rfl⟩ := List.mem_map.mp ha
  obtain ⟨before, after, rfl⟩ := List.append_of_mem hmem
  intro hnone
  exact nomatch h.cell.symm.trans hnone

/-- The cells of a list are those that its first pointer leads to. -/
theorem Seg.unique (h : Seg mem p l none) (h' : Seg mem p l' none)
    (hfirst : first l none = first l' none) : l = l' := by
  induction l generalizing p l' with
  | nil => exact (first_eq_none.mp hfirst.symm).symm
  | cons x l ih =>
      cases l' with
      | nil => exact nomatch hfirst
      | cons y l' =>
          obtain ⟨a, v⟩ := x
          obtain ⟨b, w⟩ := y
          obtain rfl : a = b := Option.some.inj hfirst
          have hcell := Option.some.inj (h.1.symm.trans h'.1)
          simp only [Cell.mk.injEq, true_and] at hcell
          obtain ⟨hnext, rfl⟩ := hcell
          rw [ih h.2 h'.2 hnext]

/-- A cell with the value can be reached from the pointer. -/
inductive Reaches (mem : A → Option (Cell A V)) (v : V) : Option A → Prop
  | here {a : A} {c : Cell A V} (hcell : mem a = some c) (hvalue : c.value = v) :
      Reaches mem v (some a)
  | behind {a : A} {c : Cell A V} (hcell : mem a = some c) (hnext : Reaches mem v c.next) :
      Reaches mem v (some a)

theorem not_reaches_none {v : V} : ¬Reaches mem v none := by
  intro h
  cases h

theorem Reaches.of_seg (h : Reaches mem v n) (hl : Seg mem p l n) : Reaches mem v (first l n) := by
  induction l generalizing p with
  | nil => exact h
  | cons x l ih => exact .behind hl.1 (ih hl.2)

theorem Seg.reaches (h : Seg mem p (l ++ (a, v) :: l') n) :
    Reaches mem v (first (l ++ (a, v) :: l') n) := by
  rw [first_append]
  exact (Reaches.here h.cell rfl).of_seg (seg_append.mp h).1

/-- Only cells of the list differ. -/
def Frame (mem mem' : A → Option (Cell A V)) (l : List (A × V)) : Prop :=
  ∀ a ∉ addrs l, mem' a = mem a

theorem Frame.refl : Frame mem mem l := fun _ _ ↦ rfl

variable {L R : List (A × V)}

theorem Frame.seg (h : Frame mem mem' L) (hapart : (addrs L).Disjoint (addrs R))
    (hR : Seg mem p R n) : Seg mem' p R n :=
  hR.congr fun a ha ↦ h a fun hmem ↦ hapart hmem ha

theorem nodup_addrs_append : (addrs (L ++ R)).Nodup ↔
    (addrs L).Nodup ∧ (addrs R).Nodup ∧ (addrs L).Disjoint (addrs R) := by
  rw [addrs_append, List.nodup_append']

/-! ## Writing a pointer -/

variable [DecidableEq A]

/-- `p->prev = q`, which has no result at no cell. -/
def setPrev (mem : A → Option (Cell A V)) (p q : Option A) : Option (A → Option (Cell A V)) :=
  p.bind fun a ↦ (mem a).map fun c ↦ Function.update mem a (some { c with prev := q })

/-- `p->next = q` -/
def setNext (mem : A → Option (Cell A V)) (p q : Option A) : Option (A → Option (Cell A V)) :=
  p.bind fun a ↦ (mem a).map fun c ↦ Function.update mem a (some { c with next := q })

theorem update_frame {c : Option (Cell A V)} (ha : a ∈ addrs l) :
    Frame mem (Function.update mem a c) l := by
  intro b hb
  apply Function.update_of_ne
  rintro rfl
  exact hb ha

theorem Seg.update (h : Seg mem p l n) (ha : a ∉ addrs l) (c : Option (Cell A V)) :
    Seg (Function.update mem a c) p l n := by
  apply h.congr
  intro b hb
  apply Function.update_of_ne
  rintro rfl
  exact ha hb

/-- The first cell is given another pointer backward. -/
theorem Seg.setPrev (h : Seg mem p l n) (hnodup : (addrs l).Nodup) (hne : l ≠ []) (q : Option A) :
    ∃ mem', setPrev mem (first l n) q = some mem' ∧ Seg mem' q l n ∧ Frame mem mem' l := by
  cases l with
  | nil => exact absurd rfl hne
  | cons x l =>
      refine ⟨Function.update mem x.1 (some ⟨q, first l n, x.2⟩), ?_, ⟨?_, ?_⟩, ?_⟩
      · rw [first, Doubly.setPrev, Option.bind_some, h.1]
        rfl
      · exact Function.update_self _ _ _
      · exact h.2.update (List.nodup_cons.mp hnodup).1 _
      · exact update_frame List.mem_cons_self

/-- The last cell is given another pointer forward. -/
theorem Seg.setNext (h : Seg mem p l n) (hnodup : (addrs l).Nodup) (hne : l ≠ []) (q : Option A) :
    ∃ mem', setNext mem (last p l) q = some mem' ∧ Seg mem' p l q ∧ Frame mem mem' l := by
  cases l using List.reverseRecOn with
  | nil => exact absurd rfl hne
  | append_singleton l x =>
      have hlast : x.1 ∉ addrs l := by
        rw [addrs_append, List.nodup_append] at hnodup
        exact fun hmem ↦ hnodup.2.2 _ hmem _ List.mem_cons_self rfl
      refine ⟨Function.update mem x.1 (some ⟨last p l, q, x.2⟩), ?_, ?_, ?_⟩
      · rw [last_append, last, last, Doubly.setNext, Option.bind_some, Seg.cell (v := x.2) h]
        rfl
      · refine seg_append.mpr ⟨(seg_append.mp h).1.update hlast _, ?_, trivial⟩
        exact Function.update_self _ _ _
      · apply update_frame
        rw [addrs_append]
        exact List.mem_append_right _ List.mem_cons_self

/-- `if (p) p->prev = q` -/
def setPrev? (mem : A → Option (Cell A V)) (p q : Option A) : Option (A → Option (Cell A V)) :=
  if p.isSome then setPrev mem p q else some mem

/-- `if (p) p->next = q` -/
def setNext? (mem : A → Option (Cell A V)) (p q : Option A) : Option (A → Option (Cell A V)) :=
  if p.isSome then setNext mem p q else some mem

theorem Seg.setPrev? (h : Seg mem p l none) (hnodup : (addrs l).Nodup) (q : Option A) :
    ∃ mem', setPrev? mem (first l none) q = some mem' ∧ Seg mem' q l none ∧ Frame mem mem' l := by
  by_cases hne : l = []
  · subst hne
    exact ⟨mem, rfl, trivial, Frame.refl⟩
  · obtain ⟨x, l, rfl⟩ := List.exists_cons_of_ne_nil hne
    exact h.setPrev hnodup hne q

theorem Seg.setNext? (h : Seg mem none l n) (hnodup : (addrs l).Nodup) (q : Option A) :
    ∃ mem', setNext? mem (last none l) q = some mem' ∧ Seg mem' none l q ∧ Frame mem mem' l := by
  by_cases hne : l = []
  · subst hne
    exact ⟨mem, rfl, trivial, Frame.refl⟩
  · have hsome : (last none l).isSome := by
      rw [Option.isSome_iff_ne_none]
      exact mt last_eq_none.mp hne
    rw [Doubly.setNext?, if_pos hsome]
    exact h.setNext hnodup hne q

/-! ## Changing a list -/

/-- A new cell between two parts. -/
theorem Seg.insert (h : Seg mem none (L ++ R) none) (hnodup : (addrs (L ++ R)).Nodup)
    (ha : a ∉ addrs (L ++ R)) (v : V) :
    ∃ mem₁ mem₂, Doubly.setNext? (Function.update mem a (some ⟨last none L, first R none, v⟩))
          (last none L) (some a) = some mem₁ ∧
        Doubly.setPrev? mem₁ (first R none) (some a) = some mem₂ ∧
        Seg mem₂ none (L ++ (a, v) :: R) none ∧
        ∀ b ≠ a, b ∉ addrs (L ++ R) → mem₂ b = mem b := by
  obtain ⟨hL, hR⟩ := seg_append.mp h
  obtain ⟨hnL, hnR, hapart⟩ := nodup_addrs_append.mp hnodup
  rw [addrs_append, List.mem_append, not_or] at ha
  obtain ⟨mem₁, hset₁, hseg₁, hframe₁⟩ :=
    (hL.update ha.1 (some ⟨last none L, first R none, v⟩)).setNext? hnL (some a)
  have hR₁ := hframe₁.seg hapart (hR.update ha.2 _)
  obtain ⟨mem₂, hset₂, hseg₂, hframe₂⟩ := hR₁.setPrev? hnR (some a)
  refine ⟨mem₁, mem₂, hset₁, hset₂, ?_, fun b hb hmem ↦ ?_⟩
  · refine seg_append.mpr ⟨hframe₂.seg hapart.symm hseg₁, ?_, hseg₂⟩
    rw [hframe₂ a ha.2, hframe₁ a ha.1, Function.update_self]
  · rw [addrs_append, List.mem_append, not_or] at hmem
    rw [hframe₂ b hmem.2, hframe₁ b hmem.1, Function.update_of_ne hb]

/-- The cell between two parts is taken out. -/
theorem Seg.remove (h : Seg mem none (L ++ (a, v) :: R) none)
    (hnodup : (addrs (L ++ (a, v) :: R)).Nodup) :
    ∃ mem₁ mem₂, Doubly.setNext? mem (last none L) (first R none) = some mem₁ ∧
        Doubly.setPrev? mem₁ (first R none) (last none L) = some mem₂ ∧
        Seg (Function.update mem₂ a none) none (L ++ R) none ∧
        ∀ b ∉ addrs (L ++ (a, v) :: R), mem₂ b = mem b := by
  obtain ⟨hL, -, hR⟩ := seg_append.mp h
  obtain ⟨hnL, hnaR, hapart⟩ := nodup_addrs_append.mp hnodup
  obtain ⟨haR, hnR⟩ := List.nodup_cons.mp hnaR
  have haL : a ∉ addrs L := fun hmem ↦ hapart hmem List.mem_cons_self
  have hapart : (addrs L).Disjoint (addrs R) := List.disjoint_of_disjoint_cons_right hapart
  obtain ⟨mem₁, hset₁, hseg₁, hframe₁⟩ := hL.setNext? hnL (first R none)
  obtain ⟨mem₂, hset₂, hseg₂, hframe₂⟩ := (hframe₁.seg hapart hR).setPrev? hnR (last none L)
  refine ⟨mem₁, mem₂, hset₁, hset₂, ?_, fun b hmem ↦ ?_⟩
  · exact seg_append.mpr ⟨(hframe₂.seg hapart.symm hseg₁).update haL _, hseg₂.update haR _⟩
  · rw [addrs_append, List.mem_append, addrs_cons, List.mem_cons, not_or, not_or] at hmem
    rw [hframe₂ b hmem.2.2, hframe₁ b hmem.1]

/-- The last cell becomes the first. -/
theorem Seg.rotate (h : Seg mem none (L ++ [x]) none) (hnodup : (addrs (L ++ [x])).Nodup)
    (hne : L ≠ []) :
    ∃ mem₁ mem₂ mem₃ mem₄, Doubly.setNext mem (last none L) none = some mem₁ ∧
        Doubly.setPrev mem₁ (first L none) (some x.1) = some mem₂ ∧
        Doubly.setPrev mem₂ (some x.1) none = some mem₃ ∧
        Doubly.setNext mem₃ (some x.1) (first L none) = some mem₄ ∧
        Seg mem₄ none (x :: L) none ∧ ∀ b ∉ addrs (L ++ [x]), mem₄ b = mem b := by
  obtain ⟨hL, hx⟩ := seg_append.mp h
  obtain ⟨hnL, hnx, hapart⟩ := nodup_addrs_append.mp hnodup
  obtain ⟨mem₁, hset₁, hseg₁, hframe₁⟩ := hL.setNext hnL hne none
  obtain ⟨mem₂, hset₂, hseg₂, hframe₂⟩ := hseg₁.setPrev hnL hne (some x.1)
  have hx₂ := hframe₂.seg hapart (hframe₁.seg hapart hx)
  obtain ⟨mem₃, hset₃, hseg₃, hframe₃⟩ := hx₂.setPrev hnx (List.cons_ne_nil _ _) none
  obtain ⟨mem₄, hset₄, hseg₄, hframe₄⟩ := hseg₃.setNext hnx (List.cons_ne_nil _ _) (first L none)
  refine ⟨mem₁, mem₂, mem₃, mem₄, hset₁, hset₂, hset₃, hset₄, ?_, fun b hmem ↦ ?_⟩
  · have hL₄ := hframe₄.seg hapart.symm (hframe₃.seg hapart.symm hseg₂)
    exact seg_append.mpr ⟨hseg₄, hL₄⟩
  · rw [addrs_append, List.mem_append, not_or] at hmem
    rw [hframe₄ b hmem.2, hframe₃ b hmem.2, hframe₂ b hmem.1, hframe₁ b hmem.1]

/-- One list behind the other. -/
theorem Seg.join (hL : Seg mem none L none) (hR : Seg mem none R none)
    (hnodup : (addrs (L ++ R)).Nodup) :
    ∃ mem₁ mem₂, Doubly.setPrev? mem (first R none) (last none L) = some mem₁ ∧
        Doubly.setNext? mem₁ (last none L) (first R none) = some mem₂ ∧
        Seg mem₂ none (L ++ R) none ∧ ∀ b ∉ addrs (L ++ R), mem₂ b = mem b := by
  obtain ⟨hnL, hnR, hapart⟩ := nodup_addrs_append.mp hnodup
  obtain ⟨mem₁, hset₁, hseg₁, hframe₁⟩ := hR.setPrev? hnR (last none L)
  obtain ⟨mem₂, hset₂, hseg₂, hframe₂⟩ :=
    (hframe₁.seg hapart.symm hL).setNext? hnL (first R none)
  refine ⟨mem₁, mem₂, hset₁, hset₂, ?_, fun b hmem ↦ ?_⟩
  · exact seg_append.mpr ⟨hseg₂, hframe₂.seg hapart hseg₁⟩
  · rw [addrs_append, List.mem_append, not_or] at hmem
    rw [hframe₂ b hmem.1, hframe₁ b hmem.2]

end Doubly
