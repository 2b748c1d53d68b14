import Mathlib.Data.List.ReduceOption
import MuxHiredis.Lib.Forest
import MuxHiredis.Reader.Building

/-!
# The objects of an unfinished reply

While a reply is read, its objects hang together below the root as far as they
were stored in a vector, and the reader holds the root.  Freeing the root frees
what hangs below it.
-/

namespace MuxHiredis

/-! ## Freeing an object -/

/-- The objects in the vector of an array. -/
def RedisReply.kids (r : RedisReply) : List Obj :=
  match r.type, r.element with
  | .array, some vec => (vec.take r.elements).reduceOption
  | _, _ => []

/-- The vector of an array, when it has one, has a place for each element. -/
def RedisReply.Sized (r : RedisReply) : Prop :=
  r.type = .array → ∀ vec ∈ r.element, r.elements ≤ vec.length

/-- The objects in the vector of the object `p`. -/
def kids (cells : List Cell) (p : Obj) : List Obj :=
  (cells[p]?.map fun c ↦ c.reply.kids).getD []

theorem kids_eq {cells : List Cell} {p : Obj} {c : Cell} (h : cells[p]? = some c) :
    kids cells p = c.reply.kids := by
  simp [kids, h]

/-- The store after the objects of `l` were freed. -/
def freed (l : List Obj) (cells : List Cell) : List Cell :=
  cells.mapIdx fun i c ↦ { c with frees := c.frees + l.count i }

@[simp] theorem freed_length (l : List Obj) (cells : List Cell) :
    (freed l cells).length = cells.length := by
  simp [freed]

@[simp] theorem freed_nil (cells : List Cell) : freed [] cells = cells := by
  simp [freed, List.mapIdx_eq_zipIdx_map]

theorem freed_getElem? (l : List Obj) (cells : List Cell) (i : ℕ) :
    (freed l cells)[i]? = cells[i]?.map fun c ↦ { c with frees := c.frees + l.count i } := by
  simp [freed]

theorem freed_append (l l' : List Obj) (cells : List Cell) :
    freed (l ++ l') cells = freed l' (freed l cells) := by
  apply List.ext_getElem?
  intro i
  simp only [freed_getElem?, Option.map_map]
  congr 1
  funext c
  simp [Nat.add_assoc]

@[simp] theorem kids_freed (l : List Obj) (cells : List Cell) :
    kids (freed l cells) = kids cells := by
  funext p
  simp [kids, freed_getElem?, Function.comp_def]

/-- What `freeReplyObject` relies on. -/
structure Freeable (cells : List Cell) : Prop where
  ordered : Forest.Ordered (kids cells) cells.length
  sized : ∀ {p : Obj} {c : Cell}, cells[p]? = some c → c.reply.Sized

theorem Freeable.freed {cells : List Cell} (h : Freeable cells) (l : List Obj) :
    Freeable (freed l cells) := by
  refine ⟨by simpa using h.ordered, ?_⟩
  intro p c hp
  rw [freed_getElem?, Option.map_eq_some_iff] at hp
  obtain ⟨c', hc', rfl⟩ := hp
  show c'.reply.Sized
  exact h.sized hc'

/-- The elements of a vector, one after the other. -/
theorem foldl_free {depth p : ℕ}
    (ih : ∀ {q : ℕ} {h : Heap}, Freeable h.cells → q < h.cells.length →
      h.cells.length < q + depth → freeReplyObjectAt depth q h =
        { h with cells := freed (Forest.walk (kids h.cells) depth q) h.cells })
    (vec : List (Option Obj)) {h : Heap} (hf : Freeable h.cells)
    (hd : h.cells.length < p + (depth + 1))
    (hvec : ∀ q ∈ vec.reduceOption, p < q ∧ q < h.cells.length) :
    vec.foldl (fun h child ↦
        match child with
        | none => h
        | some q => freeReplyObjectAt depth q h) h =
      { h with
        cells := freed (vec.reduceOption.flatMap (Forest.walk (kids h.cells) depth)) h.cells } := by
  induction vec generalizing h with
  | nil => simp
  | cons child vec ihvec =>
      cases child with
      | none =>
          rw [List.reduceOption_cons_of_none] at hvec ⊢
          exact ihvec hf hd hvec
      | some q =>
          rw [List.reduceOption_cons_of_some] at hvec ⊢
          obtain ⟨hpq, hq⟩ : p < q ∧ q < h.cells.length := hvec q List.mem_cons_self
          have hdq : h.cells.length < q + depth := by omega
          have hrest := ihvec
            (h := { h with cells := freed (Forest.walk (kids h.cells) depth q) h.cells })
            (hf.freed _) (by simpa using hd)
            (by simpa using fun x hx ↦ hvec x (List.mem_cons_of_mem q hx))
          simp only [List.foldl_cons, ih hf hq hdq]
          rw [hrest]
          simp only [kids_freed, List.flatMap_cons, freed_append]

/-- Freeing an object frees what hangs below it, and raises no fault. -/
theorem freeReplyObjectAt_eq {depth p : ℕ} {h : Heap} (hf : Freeable h.cells)
    (hp : p < h.cells.length) (hd : h.cells.length < p + depth) :
    freeReplyObjectAt depth p h =
      { h with cells := freed (Forest.walk (kids h.cells) depth p) h.cells } := by
  induction depth generalizing p h with
  | zero => omega
  | succ depth ih =>
      obtain ⟨⟨reply, frees⟩, hcell⟩ : ∃ c, h.cells[p]? = some c :=
        ⟨_, List.getElem?_eq_getElem hp⟩
      have hkids : kids h.cells p = reply.kids := kids_eq hcell
      set l := (kids h.cells p).flatMap (Forest.walk (kids h.cells) depth) with hl
      -- The walk below `p` does not come back to `p`.
      have hself : l.count p = 0 := by
        rw [List.count_eq_zero, hl, List.mem_flatMap]
        rintro ⟨q, hq, hpw⟩
        have hle := Forest.le_of_mem_walk hf.ordered hpw
        have hlt := (hf.ordered p q hq).1
        omega
      have hbelow : freeReplyObjectAt (depth + 1) p h =
          { h with cells := (freed l h.cells).set p ⟨reply, frees + 1⟩ } := by
        by_cases hvec : ∃ vec, reply.type = .array ∧ reply.element = some vec
        · obtain ⟨vec, htype, helem⟩ := hvec
          have hsized := hf.sized hcell htype vec helem
          have hk : kids h.cells p = (vec.take reply.elements).reduceOption := by
            rw [hkids, RedisReply.kids]
            simp only [htype, helem]
          have hfold := foldl_free ih _ hf hd (hk ▸ hf.ordered p)
          rw [← hk] at hfold
          simp only [freeReplyObjectAt, hcell, htype, helem, if_neg (Nat.not_lt.mpr hsized)]
          exact congrArg
            (fun h' : Heap ↦ { h' with cells := h'.cells.set p ⟨reply, frees + 1⟩ }) hfold
        · have hk : reply.kids = [] := by
            unfold RedisReply.kids
            split
            · exact (hvec ⟨_, ‹_›, ‹_›⟩).elim
            · rfl
          have hl' : l = [] := by rw [hl, hkids, hk, List.flatMap_nil]
          rw [freeReplyObjectAt, hcell, hl', freed_nil]
          simp only
          split
          · exact (hvec ⟨_, ‹_›, ‹_›⟩).elim
          · rfl
      have hset : (freed l h.cells).set p ⟨reply, frees + 1⟩ = freed (l ++ [p]) h.cells := by
        apply List.ext_getElem?
        intro i
        rw [freed_append]
        by_cases hi : i = p
        · subst hi
          rw [List.getElem?_set_self (by simpa using hp)]
          simp [freed_getElem?, hcell, hself]
        · rw [List.getElem?_set_ne (Ne.symm hi), freed_getElem? [p]]
          have hcount : [p].count i = 0 := by simp [Ne.symm hi]
          cases (freed l h.cells)[i]? <;> simp [hcount]
      rw [hbelow, hset, Forest.walk]

/-! ## Creating an object -/

theorem RedisReply.kids_ofArray {n : ℕ} {qs : List Obj} (h : qs.length ≤ n) :
    (RedisReply.ofArray n qs).kids = qs := by
  by_cases hn : 0 < n
  · simp only [kids, ofArray, createReplyObject, if_pos hn]
    rw [List.take_of_length_le (by simp; omega), List.reduceOption_append,
      List.reduceOption_replicate_none, List.append_nil]
    simp [List.reduceOption]
  · have hqs : qs = [] := List.length_eq_zero_iff.mp (by omega)
    simp only [kids, ofArray, createReplyObject, if_neg hn, hqs]

theorem RedisReply.sized_ofArray (n : ℕ) (qs : List Obj) : (RedisReply.ofArray n qs).Sized := by
  intro _ vec hvec
  by_cases hn : 0 < n
  · simp only [ofArray, createReplyObject, if_pos hn, Option.mem_def, Option.some.injEq] at hvec
    simp only [ofArray, createReplyObject, ← hvec, List.length_append, List.length_map,
      List.length_replicate]
    omega
  · simp only [ofArray, createReplyObject, if_neg hn, Option.mem_def, reduceCtorEq] at hvec

/-- The array `a` has room for an element. -/
structure Slot.Room (a : Slot) (cells : List Cell) : Prop where
  cell : cells[a.array]? = some ⟨RedisReply.ofArray a.size a.filled, 0⟩
  lt : a.filled.length < a.size

theorem Slot.Room.lt_length {a : Slot} {cells : List Cell} (h : a.Room cells) :
    cells.length > a.array :=
  (List.getElem?_eq_some_iff.mp h.cell).1

/-- The cells after the object `r` was created, as an element of `k` if any. -/
def storeIn (cells : List Cell) (k : Option Slot) (r : RedisReply) : List Cell :=
  match k with
  | none => cells ++ [⟨r, 0⟩]
  | some a =>
      (cells ++ [(⟨r, 0⟩ : Cell)]).set a.array
        ⟨RedisReply.ofArray a.size (a.filled ++ [cells.length]), 0⟩

section Store

variable {cells : List Cell} {k : Option Slot} (hk : ∀ a ∈ k, a.Room cells) {r : RedisReply}

theorem storeIn_length : (storeIn cells k r).length = cells.length + 1 := by
  cases k <;> simp [storeIn]

include hk

theorem storeIn_new : (storeIn cells k r)[cells.length]? = some ⟨r, 0⟩ := by
  cases k with
  | none => simp [storeIn]
  | some a =>
      have ha := (hk a rfl).lt_length
      rw [storeIn, List.getElem?_set_ne ha.ne]
      simp

theorem storeIn_array {a : Slot} (ha : a ∈ k) :
    (storeIn cells k r)[a.array]? =
      some ⟨RedisReply.ofArray a.size (a.filled ++ [cells.length]), 0⟩ := by
  have hlt : a.array < (cells ++ [(⟨r, 0⟩ : Cell)]).length := by
    rw [List.length_append]
    exact Nat.lt_add_right _ (hk a ha).lt_length
  obtain rfl : k = some a := ha
  rw [storeIn, List.getElem?_set_self hlt]

omit hk in
theorem storeIn_other {i : ℕ} (hi : i < cells.length) (hne : ∀ a ∈ k, i ≠ a.array) :
    (storeIn cells k r)[i]? = cells[i]? := by
  cases k with
  | none => rw [storeIn, List.getElem?_append_left hi]
  | some a =>
      rw [storeIn, List.getElem?_set_ne (hne a rfl).symm, List.getElem?_append_left hi]

/-- What is in the store after an object was created. -/
theorem storeIn_cases {i : ℕ} {c : Cell} (h : (storeIn cells k r)[i]? = some c) :
    (i = cells.length ∧ c = ⟨r, 0⟩) ∨
      (∃ a ∈ k, i = a.array ∧
        c = ⟨RedisReply.ofArray a.size (a.filled ++ [cells.length]), 0⟩) ∨
      ((∀ a ∈ k, i ≠ a.array) ∧ cells[i]? = some c) := by
  obtain ⟨hlt, -⟩ := List.getElem?_eq_some_iff.mp h
  rw [storeIn_length] at hlt
  by_cases hnew : i = cells.length
  · subst hnew
    exact .inl ⟨rfl, Option.some.inj (h.symm.trans (storeIn_new hk))⟩
  by_cases harr : ∃ a ∈ k, i = a.array
  · obtain ⟨a, ha, rfl⟩ := harr
    exact .inr (.inl ⟨a, ha, rfl, Option.some.inj (h.symm.trans (storeIn_array hk ha))⟩)
  · have hne : ∀ a ∈ k, i ≠ a.array := fun a ha hi ↦ harr ⟨a, ha, hi⟩
    exact .inr (.inr ⟨hne, storeIn_other (show i < cells.length by omega) hne ▸ h⟩)

/-- The vectors after an object without elements was created. -/
theorem kids_storeIn (hr : r.kids = []) (p : ℕ) :
    kids (storeIn cells k r) p =
      if ∃ a ∈ k, p = a.array then kids cells p ++ [cells.length] else kids cells p := by
  by_cases harr : ∃ a ∈ k, p = a.array
  · rw [if_pos harr]
    obtain ⟨a, ha, rfl⟩ := harr
    have hroom := hk a ha
    have hnew : (a.filled ++ [cells.length]).length ≤ a.size := by
      simpa using hroom.lt
    rw [kids_eq (storeIn_array hk ha), kids_eq hroom.cell,
      RedisReply.kids_ofArray hroom.lt.le, RedisReply.kids_ofArray hnew]
  · rw [if_neg harr]
    rcases lt_trichotomy p cells.length with hp | hp | hp
    · rw [kids, kids, storeIn_other hp fun a ha hpa ↦ harr ⟨a, ha, hpa⟩]
    · rw [hp, kids_eq (storeIn_new hk), hr]
      simp [kids]
    · rw [kids, kids, List.getElem?_eq_none (by rw [storeIn_length]; omega),
        List.getElem?_eq_none hp.le]

theorem Freeable.storeIn (h : Freeable cells) (hr : r.kids = []) (hsized : r.Sized) :
    Freeable (storeIn cells k r) := by
  refine ⟨?_, ?_⟩
  · intro p q hq
    rw [kids_storeIn hk hr] at hq
    rw [storeIn_length]
    have hold : q ∈ kids cells p → p < q ∧ q < cells.length + 1 := fun hq ↦
      ⟨(h.ordered p q hq).1, (h.ordered p q hq).2.trans (Nat.lt_succ_self _)⟩
    split at hq
    · rename_i harr
      obtain ⟨a, ha, rfl⟩ := harr
      rcases List.mem_append.mp hq with hq | hq
      · exact hold hq
      · obtain rfl := List.mem_singleton.mp hq
        exact ⟨(hk a ha).lt_length, Nat.lt_succ_self _⟩
    · exact hold hq
  · intro p c hp
    rcases storeIn_cases hk hp with ⟨-, rfl⟩ | ⟨a, -, -, rfl⟩ | ⟨-, hp⟩
    · exact hsized
    · exact RedisReply.sized_ofArray _ _
    · exact h.sized hp

end Store

/-- The task of an object that is created as an element of `k`, or as the root. -/
def Aims (task : RedisReadTask) (parent : Option RedisReadTask) : Option Slot → Prop
  | none => parent = none
  | some a => ∃ pt, parent = some pt ∧ pt.obj = some a.array ∧ task.idx = a.filled.length

theorem Heap.create_eq {h : Heap} (hoom : h.oom h.calls = false) {k : Option Slot}
    (hk : ∀ a ∈ k, a.Room h.cells) {task : RedisReadTask} {parent : Option RedisReadTask}
    (haim : Aims task parent k) (r : RedisReply) :
    h.create task parent r =
      (some h.cells.length, { h with calls := h.calls + 1, cells := storeIn h.cells k r }) := by
  cases k with
  | none =>
      obtain rfl : parent = none := haim
      simp only [create, hoom, Bool.false_eq_true, if_false, storeIn]
  | some a =>
      obtain ⟨pt, rfl, hobj, hidx⟩ := haim
      have hroom := hk a rfl
      have hcell : (h.cells ++ [(⟨r, 0⟩ : Cell)])[a.array]? =
          some ⟨RedisReply.ofArray a.size a.filled, 0⟩ := by
        rw [List.getElem?_append_left hroom.lt_length, hroom.cell]
      simp only [create, hoom, Bool.false_eq_true, if_false, hobj, hidx, storeIn]
      rw [setElement_open hcell hroom.lt]

/-! ## The store while a reply is read -/

/-- The objects after the `done` ones belong to the reply that is read; its root
is the first of them, and the others hang below the root, each in one place. -/
structure Heap.Unfinished (h : Heap) (done : List Cell) (root : Option Obj) : Prop where
  fault : h.fault = false
  older : done <+: h.cells
  freeable : Freeable h.cells
  unfreed : ∀ {p : ℕ} {c : Cell}, done.length ≤ p → h.cells[p]? = some c → c.frees = 0
  none_eq : root = none → h.cells.length = done.length
  some_eq : ∀ {p : Obj}, root = some p → p = done.length ∧ done.length < h.cells.length
  owned : ∀ {i : ℕ}, done.length ≤ i → i < h.cells.length →
    (Forest.walk (kids h.cells) (h.cells.length + 1) done.length).count i = 1

namespace Heap.Unfinished

variable {h : Heap} {done : List Cell} {root : Option Obj}

/-- The next object was created: the root, or an element of an array of the
reply. -/
theorem created (hu : h.Unfinished done root) {k : Option Slot}
    (hk : ∀ a ∈ k, a.Room h.cells ∧ done.length ≤ a.array) (hroot : root = none ↔ k = none)
    {r : RedisReply} (hr : r.kids = []) (hsized : r.Sized) (calls : ℕ) :
    ({ h with calls := calls, cells := storeIn h.cells k r } : Heap).Unfinished done
      (some done.length) := by
  have hroom : ∀ a ∈ k, a.Room h.cells := fun a ha ↦ (hk a ha).1
  have hle : done.length ≤ h.cells.length := by
    cases root with
    | none => exact (hu.none_eq rfl).ge
    | some p => exact (hu.some_eq rfl).2.le
  have holder : done <+: storeIn h.cells k r := by
    rw [List.prefix_iff_getElem?]
    intro i hi
    rw [storeIn_other (by omega) fun a ha ↦ (hi.trans_le (hk a ha).2).ne]
    exact List.prefix_iff_getElem?.mp hu.older i hi
  refine ⟨hu.fault, holder, hu.freeable.storeIn hroom hr hsized, ?_, by simp, ?_, ?_⟩
  · intro p c hp hc
    rcases storeIn_cases hroom hc with ⟨-, rfl⟩ | ⟨a, -, -, rfl⟩ | ⟨-, hc⟩
    · rfl
    · rfl
    · exact hu.unfreed hp hc
  · intro p hp
    exact ⟨(Option.some.inj hp).symm, by simp only [storeIn_length]; omega⟩
  · intro i hi hlt
    simp only [storeIn_length] at hlt ⊢
    cases k with
    | none =>
        -- The root is the only object.
        have hlen := hu.none_eq (hroot.mpr rfl)
        obtain rfl : i = done.length := by omega
        have hkids : kids (storeIn h.cells none r) done.length = [] := by
          rw [kids_storeIn hroom hr, if_neg (by simp)]
          simp [kids, ← hlen]
        rw [Forest.walk_leaf hkids, List.count_singleton_self]
    | some a =>
        obtain ⟨ha, hbase⟩ := hk a rfl
        have halt := ha.lt_length
        have hatt : Forest.Attached (kids h.cells) (kids (storeIn h.cells (some a) r))
            h.cells.length a.array := by
          refine ⟨?_, ?_, ?_⟩
          · rw [kids_storeIn hroom hr, if_pos ⟨a, rfl, rfl⟩]
            exact List.perm_append_singleton _ _
          · rw [kids_eq (storeIn_new hroom), hr]
          · intro p hpa _
            rw [kids_storeIn hroom hr, if_neg]
            rintro ⟨b, hb, rfl⟩
            exact hpa (Option.some.inj hb ▸ rfl)
        rw [hatt.count_walk hu.freeable.ordered (by omega) (by omega),
          Forest.walk_depth hu.freeable.ordered (h.cells.length + 1) (by omega)
            (by omega) (by omega)]
        by_cases hin : i = h.cells.length
        · have hnot :
              (Forest.walk (kids h.cells) (h.cells.length + 1) done.length).count i = 0 := by
            rw [List.count_eq_zero]
            intro hmem
            have := Forest.lt_of_mem_walk hu.freeable.ordered (by omega) hmem
            omega
          rw [if_pos hin, hnot, hu.owned hbase halt]
        · rw [if_neg hin, hu.owned hi (by omega)]

/-- Freeing the root frees every object of the reply once, and no other. -/
theorem free_root (hu : h.Unfinished done (some done.length)) :
    (freeReplyObject done.length h).fault = false ∧
      done <+: (freeReplyObject done.length h).cells ∧
      ∀ {i : ℕ} {c : Cell}, done.length ≤ i → (freeReplyObject done.length h).cells[i]? = some c →
        c.frees = 1 := by
  obtain ⟨-, hlt⟩ := hu.some_eq rfl
  rw [freeReplyObject, freeReplyObjectAt_eq hu.freeable hlt (by omega)]
  refine ⟨hu.fault, ?_, ?_⟩
  · rw [List.prefix_iff_getElem?]
    intro i hi
    have hnot : (Forest.walk (kids h.cells) (h.cells.length + 1) done.length).count i = 0 := by
      rw [List.count_eq_zero]
      intro hmem
      have := Forest.le_of_mem_walk hu.freeable.ordered hmem
      omega
    rw [freed_getElem?, List.prefix_iff_getElem?.mp hu.older i hi, hnot]
    rfl
  · intro i c hi hc
    rw [freed_getElem?, Option.map_eq_some_iff] at hc
    obtain ⟨c', hc', rfl⟩ := hc
    have hilt := (List.getElem?_eq_some_iff.mp hc').1
    simp only [hu.unfreed hi hc', hu.owned hi hilt]

theorem counted (hu : h.Unfinished done root) (calls : ℕ) :
    ({ h with calls := calls } : Heap).Unfinished done root :=
  ⟨hu.fault, hu.older, hu.freeable, hu.unfreed, hu.none_eq, hu.some_eq, hu.owned⟩

/-- The reply is handed over, and the next one starts. -/
theorem handed_over (hu : h.Unfinished done root) : h.Unfinished h.cells none := by
  refine ⟨hu.fault, List.prefix_rfl, hu.freeable, ?_, fun _ ↦ rfl, by simp, ?_⟩
  · intro p c hp hc
    have := (List.getElem?_eq_some_iff.mp hc).1
    omega
  · intro i hi hlt
    omega

end Heap.Unfinished

end MuxHiredis
