import MuxHiredis.Reader.Item
import MuxHiredis.Reader.Encoding

/-!
# Building a reply in the store

How the objects of a reply come into the store, one item after the other, and
what the task stack says about the arrays under construction.  Reading a
subtree takes the reader from the start of its item to the point where the item
is about to be closed, with the tasks below it untouched.
-/

namespace MuxHiredis

open Resumable

/-! ## The store -/

/-- All allocations succeed, and no access went wrong so far. -/
structure Heap.Quiet (h : Heap) : Prop where
  fault : h.fault = false
  oom : ∀ n, h.oom n = false

/-- The array under construction that the next object goes into: the task and
the object that describe it, its size, and its elements so far. -/
structure Slot where
  task : ℕ
  array : Obj
  size : ℕ
  filled : List Obj

/-- The current item of `s` is the next element of the array `k`. -/
structure Slot.Open (k : Slot) (s : ReadState Heap) : Prop where
  ridx : s.ridx = k.task + 1
  parent : s.cur.parent = some k.task
  obj : (s.rstack k.task).obj = some k.array
  elements : (s.rstack k.task).elements = k.size
  idx : s.cur.idx = k.filled.length
  room : k.filled.length < k.size
  cell : s.store.cells[k.array]? = some ⟨RedisReply.ofArray k.size k.filled, 0⟩

/-- The current item of `s` goes into `k`, or is the root. -/
def Placed (s : ReadState Heap) : Option Slot → Prop
  | none => s.cur.parent = none
  | some k => k.Open s

/-- How the store grows while an object goes into `k`. -/
structure Frame (k : Option Slot) (cells cells' : List Cell) : Prop where
  grows : cells.length < cells'.length
  keeps : ∀ {i c}, cells[i]? = some c → (∀ a ∈ k, i ≠ a.array) → cells'[i]? = some c
  fills : ∀ a ∈ k,
    cells'[a.array]? = some ⟨RedisReply.ofArray a.size (a.filled ++ [cells.length]), 0⟩

theorem Heap.setElement_open {h : Heap} {a : Obj} {n : ℕ} {filled : List Obj} {p : Obj}
    (hcell : h.cells[a]? = some ⟨RedisReply.ofArray n filled, 0⟩) (hroom : filled.length < n) :
    h.setElement (some a) filled.length p =
      { h with cells := h.cells.set a ⟨RedisReply.ofArray n (filled ++ [p]), 0⟩ } := by
  have hpos : 0 < n := by omega
  have hset : (filled.map some ++ List.replicate (n - filled.length) (none : Option Obj)).set
      filled.length (some p) =
        (filled ++ [p]).map some ++ List.replicate (n - (filled ++ [p]).length) none := by
    have hrep : List.replicate (n - filled.length) (none : Option Obj) =
        none :: List.replicate (n - (filled ++ [p]).length) none := by
      rw [← List.replicate_succ]
      congr 1
      simp only [List.length_append, List.length_singleton]
      omega
    rw [hrep, List.set_append_right _ _ (by simp)]
    simp
  have hlt : (0 : ℤ) ≤ filled.length ∧ (filled.length : ℤ) <
      (filled.map some ++ List.replicate (n - filled.length) (none : Option Obj)).length := by
    simp only [List.length_append, List.length_map, List.length_replicate]
    omega
  simp only [setElement, hcell, RedisReply.ofArray, createReplyObject, if_pos hpos, if_pos hlt,
    Int.toNat_natCast, hset]

/-- Creating an object: where it lies, and what else changes. -/
theorem Heap.create_spec {s : ReadState Heap} (hq : s.store.Quiet) {k : Option Slot}
    (hk : Placed s k) (r : RedisReply) :
    (s.store.create s.cur s.parent r).1 = some s.store.cells.length ∧
      (s.store.create s.cur s.parent r).2.Quiet ∧
      Frame k s.store.cells (s.store.create s.cur s.parent r).2.cells ∧
      (s.store.create s.cur s.parent r).2.cells[s.store.cells.length]? = some ⟨r, 0⟩ := by
  have hoom := hq.oom s.store.calls
  cases k with
  | none =>
      have hpar : s.parent = none := by
        simp only [ReadState.parent, show s.cur.parent = none from hk, Option.map_none]
      simp only [create, hoom, Bool.false_eq_true, if_false, hpar]
      refine ⟨trivial, ⟨hq.fault, hq.oom⟩, ⟨by simp, ?_, by simp⟩, by simp⟩
      intro i c hi _
      obtain ⟨hlt, -⟩ := List.getElem?_eq_some_iff.mp hi
      rwa [List.getElem?_append_left hlt]
  | some a =>
      have hopen : a.Open s := hk
      have hpar : s.parent = some (s.rstack a.task) := by
        simp only [ReadState.parent, hopen.parent, Option.map_some]
      obtain ⟨halt, -⟩ := List.getElem?_eq_some_iff.mp hopen.cell
      have hcell : (s.store.cells ++ [⟨r, 0⟩])[a.array]? =
          some ⟨RedisReply.ofArray a.size a.filled, 0⟩ := by
        rw [List.getElem?_append_left halt, hopen.cell]
      simp only [create, hoom, Bool.false_eq_true, if_false, hpar, hopen.obj, hopen.idx]
      rw [setElement_open hcell hopen.room]
      refine ⟨trivial, ⟨hq.fault, hq.oom⟩, ⟨by simp, ?_, ?_⟩, ?_⟩
      · intro i c hi hne
        obtain ⟨hlt, -⟩ := List.getElem?_eq_some_iff.mp hi
        have hia := hne a rfl
        rw [List.getElem?_set_ne hia.symm, List.getElem?_append_left hlt, hi]
      · intro b hb
        obtain rfl : a = b := Option.some.inj hb
        rw [List.getElem?_set_self (by simp; omega)]
      · rw [List.getElem?_set_ne (by omega)]
        simp

/-! ## Trees in a growing store -/

namespace ReplyTree

mutual

theorem Represents.mono {cells cells' : List Cell} : (t : ReplyTree) → {p : Obj} →
    Represents cells p t →
    (∀ i c, p ≤ i → cells[i]? = some c → cells'[i]? = some c) → Represents cells' p t
  | .status _, _, h, hkeep => hkeep _ _ le_rfl h
  | .error _, _, h, hkeep => hkeep _ _ le_rfl h
  | .integer _, _, h, hkeep => hkeep _ _ le_rfl h
  | .string _, _, h, hkeep => hkeep _ _ le_rfl h
  | .nil, _, h, hkeep => hkeep _ _ le_rfl h
  | .array ts, p, h, hkeep => by
      obtain ⟨qs, hcell, hlt, hall⟩ := h
      refine ⟨qs, hkeep _ _ le_rfl hcell, hlt, RepresentsAll.mono ts hall ?_⟩
      intro q hq i c hi hc
      exact hkeep i c ((hlt q hq).le.trans hi) hc

theorem RepresentsAll.mono {cells cells' : List Cell} : (ts : List ReplyTree) →
    {qs : List Obj} → RepresentsAll cells qs ts →
    (∀ q ∈ qs, ∀ i c, q ≤ i → cells[i]? = some c → cells'[i]? = some c) →
    RepresentsAll cells' qs ts
  | [], [], _, _ => trivial
  | t :: ts, q :: qs, h, hkeep => by
      refine ⟨Represents.mono t h.1 (hkeep q (by simp)), RepresentsAll.mono ts h.2 ?_⟩
      intro q' hq'
      exact hkeep q' (by simp [hq'])
  | [], _ :: _, h, _ => h.elim
  | _ :: _, [], h, _ => h.elim

end

end ReplyTree

/-! ## One item -/

namespace ReadState

/-- The reader `u` has read the tree `t` as the item `s` stood at, and is about
to close that item. -/
structure Decoded (s : ReadState Heap) (k : Option Slot) (t : ReplyTree) (u : ReadState Heap) :
    Prop where
  ridx : u.ridx = s.ridx
  below : ∀ i < s.ridx.toNat, u.rstack i = s.rstack i
  idx : u.cur.idx = s.cur.idx
  parent : u.cur.parent = s.cur.parent
  reply : u.reply = if s.ridx = 0 then some s.store.cells.length else s.reply
  quiet : u.store.Quiet
  frame : Frame k s.store.cells u.store.cells
  tree : ReplyTree.Represents u.store.cells s.store.cells.length t

theorem Placed.setType {s : ReadState Heap} {k : Option Slot} (hk : Placed s k)
    (type : ReplyType) : Placed (s.setType type) k := by
  cases k with
  | none => simpa [Placed, ReadState.setType] using hk
  | some a =>
      have hopen : a.Open s := hk
      have hne : a.task ≠ s.ridx.toNat := by
        have := hopen.ridx
        omega
      have hstack : (s.setType type).rstack a.task = s.rstack a.task :=
        Function.update_of_ne hne _ _
      exact ⟨hopen.ridx, by simpa [ReadState.setType] using hopen.parent,
        by rw [hstack, hopen.obj], by rw [hstack, hopen.elements],
        by simpa [ReadState.setType] using hopen.idx, hopen.room, hopen.cell⟩

@[simp] theorem setRoot_rstack (s : ReadState Heap) (obj : Obj) :
    (s.setRoot obj).rstack = s.rstack := by
  unfold setRoot
  split <;> rfl

@[simp] theorem setRoot_store (s : ReadState Heap) (obj : Obj) :
    (s.setRoot obj).store = s.store := by
  unfold setRoot
  split <;> rfl

/-- The item `s` stood at, with its type known and the object `r` made for it. -/
def made (s : ReadState Heap) (type : ReplyType) (r : RedisReply) : ReadState Heap :=
  { s.setType type with
    store := (s.store.create (s.setType type).cur (s.setType type).parent r).2 }

/-- An item without elements, once its object `r` was made. -/
theorem decoded_leaf {s : ReadState Heap} (hq : s.store.Quiet) {k : Option Slot}
    (hk : Placed s k) (type : ReplyType) (r : RedisReply) {t : ReplyTree}
    (ht : ∀ cells : List Cell, cells[s.store.cells.length]? = some ⟨r, 0⟩ →
      ReplyTree.Represents cells s.store.cells.length t)
    (rest : List UInt8) :
    ∃ u, Decoded s k t u ∧
      objectStep defaultFunctions
        ((s.store.create (s.setType type).cur (s.setType type).parent r).1, s.made type r)
        closeItem rest = .emit () u.moveToNextTask rest := by
  obtain ⟨hobj, hquiet, hframe, hcell⟩ :=
    Heap.create_spec (s := s.setType type) hq (Placed.setType hk type) r
  change (s.store.create _ _ r).1 = some s.store.cells.length at hobj
  have hidx : (s.made type r).ridx = s.ridx := rfl
  have hstack : (s.made type r).rstack =
      Function.update s.rstack s.ridx.toNat { s.cur with type := some type } := rfl
  refine ⟨(s.made type r).setRoot s.store.cells.length, ⟨?_, ?_, ?_, ?_, ?_, ?_, ?_, ?_⟩, ?_⟩
  · rw [setRoot_ridx, hidx]
  · intro i hi
    rw [setRoot_rstack, hstack]
    exact Function.update_of_ne (by omega) _ _
  · rw [cur, setRoot_ridx, setRoot_rstack, hidx, hstack, Function.update_self]
  · rw [cur, setRoot_ridx, setRoot_rstack, hidx, hstack, Function.update_self]
  · unfold setRoot
    rw [hidx]
    by_cases h0 : s.ridx = 0
    · simp only [if_pos h0]
    · simp only [if_neg h0]
      rfl
  · rw [setRoot_store]
    exact hquiet
  · rw [setRoot_store]
    exact hframe
  · rw [setRoot_store]
    exact ht _ hcell
  · rw [hobj]
    rfl

/-- The result of a create function of the default table, for an item of known
type. -/
abbrev makes (s : ReadState Heap) (type : ReplyType) (r : RedisReply) :
    Option Obj × ReadState Heap :=
  ((s.store.create (s.setType type).cur (s.setType type).parent r).1, s.made type r)

theorem makeString_default (s : ReadState Heap) (type : ReplyType) (str : List UInt8) :
    (s.setType type).makeString defaultFunctions type str =
      s.makes type (RedisReply.ofString type str) := by
  have hcur : (s.setType type).cur.type.getD .string = type := by simp
  simp only [makeString, defaultFunctions, Option.map_some, makeObject, createStringObject, hcur]
  rfl

theorem makeInteger_default (s : ReadState Heap) (type : ReplyType) (value : ℤ) :
    (s.setType type).makeInteger defaultFunctions value =
      s.makes type (RedisReply.ofInteger value) := rfl

theorem makeNil_default (s : ReadState Heap) (type : ReplyType) :
    (s.setType type).makeNil defaultFunctions = s.makes type (createReplyObject .nil) := rfl

theorem makeArray_default (s : ReadState Heap) (type : ReplyType) {n : ℕ} (hn : n < 2 ^ 31) :
    (s.setType type).makeArray defaultFunctions n =
      s.makes type (RedisReply.ofArray n []) := by
  have hwrap : wrap32 (n : ℤ) = n := wrap32_of_lt (by omega) (by omega)
  have hmod : ((n : ℤ) % 2 ^ 64).toNat = n := by omega
  have hpos : (0 : ℤ) < n ↔ 0 < n := by omega
  simp only [makeArray, defaultFunctions, Option.map_some, makeObject, createArrayObject, hwrap,
    hmod, hpos, Int.toNat_natCast]
  rfl

/-- The bytes of one item: its type byte and what follows. -/
theorem itemStep_byte {s : ReadState Heap} (hs : s.cur.type = none) {byte : UInt8}
    {type : ReplyType} (hb : RedisReader.typeOfByte byte = some type) (xs : List UInt8) :
    s.itemStep defaultFunctions (byte :: xs) =
      (s.setType type).typedStep defaultFunctions xs := by
  simp only [itemStep, if_pos hs, hb]

/-! ## Opening and closing arrays -/

/-- After a last element the array is closed like an item of its own. -/
theorem moveToNextTask_last {u : ReadState Heap} {m : ℕ} (hr : u.ridx = m + 1)
    (hlast : u.cur.idx = (u.rstack m).elements - 1) :
    u.moveToNextTask = moveToNextTask { u with ridx := m } := by
  have hnat : u.ridx.toNat = m + 1 := by omega
  have hcur : (u.rstack (m + 1)).idx = (u.rstack m).elements - 1 := by
    rwa [cur, hnat] at hlast
  have hm : ¬((m : ℤ) < 0) := by omega
  rw [moveToNextTask, if_neg (by omega), hnat, moveFrom, if_pos hcur, moveToNextTask, if_neg hm,
    Int.toNat_natCast]

/-- The task of the next element of the array that `u` is about to leave. -/
def nextElement (u : ReadState Heap) : ReadState Heap :=
  u.setCur { u.cur with type := none, elements := -1, idx := u.cur.idx + 1 }

theorem moveToNextTask_next {u : ReadState Heap} {m : ℕ} (hr : u.ridx = m + 1)
    (hnext : u.cur.idx ≠ (u.rstack m).elements - 1) : u.moveToNextTask = u.nextElement := by
  have hnat : u.ridx.toNat = m + 1 := by omega
  have hcur : (u.rstack (m + 1)).idx ≠ (u.rstack m).elements - 1 := by
    rwa [cur, hnat] at hnext
  rw [moveToNextTask, if_neg (by omega), hnat, moveFrom, if_neg hcur, nextElement, setCur, cur,
    hnat, ← hr]

theorem openArray_zero {s : ReadState Heap} {n : ℤ} (hn : s.ridx = n) (obj : Obj) :
    openArray (n = 0) ((0 : ℕ) : ℤ) obj s = s.closeItem obj := by
  rw [← closeNil_eq hn]
  rfl

/-- The reader after it opened the array `p` of `n` elements. -/
structure Opened (s : ReadState Heap) (n d : ℕ) (p : Obj) (s' : ReadState Heap) : Prop where
  ridx : s'.ridx = d + 1
  cur : s'.cur = freshTask 0 (some d)
  task : s'.rstack d = { s.cur with type := some .array, elements := n, obj := some p }
  below : ∀ i < d, s'.rstack i = s.rstack i
  reply : s'.reply = if s.ridx = 0 then some p else s.reply
  store : s'.store = (s.made .array (RedisReply.ofArray n [])).store

theorem openArray_opened {s : ReadState Heap} {n d : ℕ} (hd : s.ridx = d) (hpos : 0 < n)
    (hn : n < 2 ^ 31) (p : Obj) :
    Opened s n d p
      (openArray (s.ridx = 0) n p (s.made .array (RedisReply.ofArray n []))) := by
  have hwrap : wrap32 (n : ℤ) = n := wrap32_of_lt (by omega) (by omega)
  have hpos' : (0 : ℤ) < n := by omega
  generalize hx : s.made .array (RedisReply.ofArray n []) = x
  have hridx : x.ridx = d := by
    rw [← hx]
    exact hd
  have hnat : x.ridx.toNat = d := by omega
  have hnat' : (x.ridx + 1).toNat = d + 1 := by omega
  have hstack : x.rstack = Function.update s.rstack d { s.cur with type := some .array } := by
    rw [← hx, show d = s.ridx.toNat by omega]
    rfl
  have hreply : x.reply = s.reply := by
    rw [← hx]
    rfl
  have hpush : (x.pushTask n p).rstack = Function.update (Function.update x.rstack d
      { s.cur with type := some .array, elements := n, obj := some p }) (d + 1)
        (freshTask 0 (some d)) := by
    have hcur : x.cur = { s.cur with type := some .array } := by
      rw [ReadState.cur, hnat, hstack, Function.update_self]
    simp only [pushTask, setCur, hnat, hnat', hwrap, hcur]
  have hopen : ∃ reply, openArray (s.ridx = 0) n p x = { x.pushTask n p with reply := reply } ∧
      reply = if s.ridx = 0 then some p else s.reply := by
    by_cases h0 : s.ridx = 0
    · exact ⟨some p, by simp only [openArray, if_pos hpos', if_pos h0], by rw [if_pos h0]⟩
    · refine ⟨s.reply, ?_, by rw [if_neg h0]⟩
      simp only [openArray, if_pos hpos', if_neg h0, ← hreply]
      rfl
  obtain ⟨reply, heq, hrep⟩ := hopen
  rw [heq]
  refine ⟨?_, ?_, ?_, ?_, hrep, ?_⟩
  · show x.ridx + 1 = d + 1
    rw [hridx]
  · show (x.pushTask n p).rstack (x.ridx + 1).toNat = _
    rw [hpush, hnat', Function.update_self]
  · show (x.pushTask n p).rstack d = _
    rw [hpush, Function.update_of_ne (by omega), Function.update_self]
  · intro i hi
    show (x.pushTask n p).rstack i = _
    rw [hpush, Function.update_of_ne (by omega), Function.update_of_ne (by omega), hstack,
      Function.update_of_ne (by omega)]
  · show x.store = _
    rw [hx]

/-- The first element goes into the array that was opened. -/
theorem Opened.slot {s s' : ReadState Heap} {n d : ℕ} {p : Obj} (h : Opened s n d p s')
    (hpos : 0 < n)
    (hcell : (s.made .array (.ofArray n [])).store.cells[p]? = some ⟨.ofArray n [], 0⟩) :
    (⟨d, p, n, []⟩ : Slot).Open s' := by
  refine ⟨h.ridx, by rw [h.cur]; rfl, by rw [h.task], by rw [h.task], by rw [h.cur]; rfl,
    hpos, ?_⟩
  rw [h.store]
  exact hcell

/-! ## Trees -/

/-- The reader `u` has read the elements `ts`, the last of the array `k`, as the
objects `qs`, and is about to close the array. -/
structure DecodedAll (s : ReadState Heap) (k : Slot) (ts : List ReplyTree) (qs : List Obj)
    (u : ReadState Heap) : Prop where
  ridx : u.ridx = k.task
  below : ∀ i ≤ k.task, u.rstack i = s.rstack i
  reply : u.reply = s.reply
  quiet : u.store.Quiet
  grows : s.store.cells.length ≤ u.store.cells.length
  keeps : ∀ {i c}, s.store.cells[i]? = some c → i ≠ k.array → u.store.cells[i]? = some c
  fills : u.store.cells[k.array]? =
    some ⟨RedisReply.ofArray k.size (k.filled ++ qs), 0⟩
  fresh : ∀ q ∈ qs, s.store.cells.length ≤ q
  trees : ReplyTree.RepresentsAll u.store.cells qs ts

theorem Decoded.ofElements {s s' u : ReadState Heap} (hq : s.store.Quiet) {k : Option Slot}
    (hk : Placed s k) {d : ℕ} (hd : s.ridx = d) {ts : List ReplyTree} {qs : List Obj}
    (hopen : Opened s ts.length d s.store.cells.length s')
    (h : DecodedAll s' ⟨d, s.store.cells.length, ts.length, []⟩ ts qs u) :
    Decoded s k (.array ts) u := by
  obtain ⟨-, -, hframe, -⟩ := Heap.create_spec (s := s.setType .array) hq
    (Placed.setType hk .array) (RedisReply.ofArray ts.length [])
  change Frame k s.store.cells (s.made .array (RedisReply.ofArray ts.length [])).store.cells
    at hframe
  rw [← hopen.store] at hframe
  have hcur : u.cur = { s.cur with
      type := some .array, elements := ts.length, obj := some s.store.cells.length } := by
    rw [ReadState.cur, h.ridx, Int.toNat_natCast, h.below d le_rfl, hopen.task]
  refine ⟨h.ridx.trans hd.symm, ?_, by rw [hcur], by rw [hcur], h.reply.trans hopen.reply,
    h.quiet, ⟨hframe.grows.trans_le h.grows, ?_, ?_⟩, qs, h.fills, ?_, h.trees⟩
  · intro i hi
    rw [hd, Int.toNat_natCast] at hi
    rw [h.below i hi.le, hopen.below i hi]
  · intro i c hi hne
    obtain ⟨hlt, -⟩ := List.getElem?_eq_some_iff.mp hi
    exact h.keeps (hframe.keeps hi hne) hlt.ne
  · intro a ha
    obtain rfl : k = some a := ha
    obtain ⟨hlt, -⟩ := List.getElem?_eq_some_iff.mp (show a.Open s from hk).cell
    exact h.keeps (hframe.fills a rfl) hlt.ne
  · intro q hmem
    exact hframe.grows.trans_le (h.fresh q hmem)

/-- After an element that was not the last one, the next is up. -/
theorem Decoded.nextOpen {s u : ReadState Heap} {k : Slot} (hk : k.Open s) {t : ReplyTree}
    (h : Decoded s (some k) t u) (hroom : k.filled.length + 1 < k.size) :
    ({ k with filled := k.filled ++ [s.store.cells.length] } : Slot).Open u.nextElement := by
  have hnat : u.ridx.toNat = k.task + 1 := by
    have := h.ridx
    have := hk.ridx
    omega
  have htask : u.nextElement.rstack k.task = s.rstack k.task := by
    rw [← h.below k.task (by have := hk.ridx; omega)]
    exact Function.update_of_ne (by omega) _ _
  have hlen : (k.filled ++ [s.store.cells.length]).length = k.filled.length + 1 := by simp
  refine ⟨h.ridx.trans hk.ridx, ?_, ?_, ?_, ?_, ?_, h.frame.fills k rfl⟩
  · rw [nextElement, setCur_cur]
    exact h.parent.trans hk.parent
  · rw [htask]
    exact hk.obj
  · rw [htask]
    exact hk.elements
  · rw [nextElement, setCur_cur, hlen]
    show u.cur.idx + 1 = _
    rw [h.idx, hk.idx]
    push_cast
    ring
  · rw [hlen]
    exact hroom

theorem Decoded.lastElement {s u : ReadState Heap} {k : Slot} (hk : k.Open s) {t : ReplyTree}
    (h : Decoded s (some k) t u) (hsize : k.filled.length + 1 = k.size) :
    u.moveToNextTask = moveToNextTask { u with ridx := k.task } ∧
      DecodedAll s k [t] [s.store.cells.length] { u with ridx := k.task } := by
  have hbelow : ∀ i ≤ k.task, u.rstack i = s.rstack i := fun i hi ↦
    h.below i (by have := hk.ridx; omega)
  refine ⟨moveToNextTask_last (h.ridx.trans hk.ridx) ?_, ⟨rfl, hbelow, ?_, h.quiet,
    h.frame.grows.le, ?_, h.frame.fills k rfl, by simp, h.tree, trivial⟩⟩
  · rw [hbelow k.task le_rfl, hk.elements, h.idx, hk.idx]
    omega
  · have hne : s.ridx ≠ 0 := by
      have := hk.ridx
      omega
    exact h.reply.trans (if_neg hne)
  · intro i c hi hne
    refine h.frame.keeps hi ?_
    rintro a ⟨⟩
    exact hne

theorem DecodedAll.cons {s u v : ReadState Heap} {k : Slot} (hk : k.Open s) {t : ReplyTree}
    {ts : List ReplyTree} {qs : List Obj} (h : Decoded s (some k) t u)
    (h' : DecodedAll u.nextElement { k with filled := k.filled ++ [s.store.cells.length] }
      ts qs v) :
    DecodedAll s k (t :: ts) (s.store.cells.length :: qs) v := by
  have hne : s.ridx ≠ 0 := by
    have := hk.ridx
    omega
  obtain ⟨harr, -⟩ := List.getElem?_eq_some_iff.mp hk.cell
  refine ⟨h'.ridx, ?_, ?_, h'.quiet, h.frame.grows.le.trans h'.grows, ?_, ?_, ?_, ?_,
    h'.trees⟩
  · intro i hi
    rw [h'.below i hi, ← h.below i (by have := hk.ridx; omega)]
    exact Function.update_of_ne (by have := h.ridx; have := hk.ridx; omega) _ _
  · rw [h'.reply]
    exact h.reply.trans (if_neg hne)
  · intro i c hi hia
    refine h'.keeps (h.frame.keeps hi ?_) hia
    rintro a ⟨⟩
    exact hia
  · have hfills := h'.fills
    rwa [List.append_assoc, List.singleton_append] at hfills
  · intro q hmem
    rcases List.mem_cons.mp hmem with rfl | hmem
    · exact le_rfl
    · exact h.frame.grows.le.trans (h'.fresh q hmem)
  · refine ReplyTree.Represents.mono t h.tree ?_
    intro i c hi hc
    exact h'.keeps hc (harr.trans_le hi).ne'

theorem runs_item {s u : ReadState Heap} {xs rest : List UInt8}
    (h : s.itemStep defaultFunctions xs = .emit () u rest) :
    Runs (itemStep defaultFunctions) finished s xs u rest := .last h

theorem finished_of_nonneg {s : ReadState Heap} (h : 0 ≤ s.ridx) : finished s = none :=
  if_neg (by omega)

/-- The state in which a reply starts. -/
structure Ready (s : ReadState Heap) : Prop where
  ridx : s.ridx = 0
  cur : s.cur = freshTask (-1) none
  quiet : s.store.Quiet

/-- Closing the root hands over the reply, and the next one starts. -/
theorem finished_root {u : ReadState Heap} (hr : u.ridx = 0) (hq : u.store.Quiet) {obj : Obj}
    (hobj : u.reply = some obj) :
    ∃ s', finished u.moveToNextTask = some ((obj, u.store), s') ∧ s'.Ready := by
  have hmove : u.moveToNextTask = { u with ridx := -1 } := by
    rw [moveToNextTask, if_neg (by omega), hr]
    rfl
  have hfin := congrArg finished hmove
  simp only [finished, if_true, hobj, Option.map_some] at hfin
  refine ⟨_, hfin, rfl, ?_, hq⟩
  simp [start, cur]

end ReadState

end MuxHiredis
