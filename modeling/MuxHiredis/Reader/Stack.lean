import MuxHiredis.Reader.Freeing

/-!
# The task stack while a reply is read

Each task below the current one describes an array of the reply: its object,
the size of its vector and the elements stored so far.  One lemma says all that
an item can do; from it, every item keeps the stack and the store in step.
-/

namespace MuxHiredis

open Resumable

/-- What `createArrayObject` makes of its count. -/
def RedisReply.ofCount (elements : ℤ) : RedisReply :=
  { createReplyObject .array with
    element := if 0 < elements then some (List.replicate elements.toNat none) else none
    elements := (elements % 2 ^ 64).toNat }

theorem RedisReply.ofCount_eq {n : ℕ} (hn : n < 2 ^ 31) :
    RedisReply.ofCount n = RedisReply.ofArray n [] := by
  have hmod : ((n : ℤ) % 2 ^ 64).toNat = n := by omega
  have hpos : (0 : ℤ) < n ↔ 0 < n := by omega
  simp only [ofCount, ofArray, hmod, hpos, Int.toNat_natCast, List.map_nil, List.nil_append,
    List.length_nil, Nat.sub_zero]

theorem RedisReply.kids_ofCount (c : ℤ) : (RedisReply.ofCount c).kids = [] := by
  by_cases hc : 0 < c
  · simp only [kids, ofCount, createReplyObject, if_pos hc, List.take_replicate,
      List.reduceOption_replicate_none]
  · simp only [kids, ofCount, createReplyObject, if_neg hc]

theorem RedisReply.sized_ofCount (c : ℤ) : (RedisReply.ofCount c).Sized := by
  intro _ vec hvec
  by_cases hc : 0 < c
  · simp only [ofCount, if_pos hc, Option.mem_def, Option.some.injEq] at hvec
    rw [← hvec, List.length_replicate]
    simp only [ofCount]
    omega
  · simp [ofCount, hc] at hvec

theorem Heap.create_fst (h : Heap) (task : RedisReadTask) (parent : Option RedisReadTask)
    (r : RedisReply) :
    (h.create task parent r).1 = if h.oom h.calls then none else some h.cells.length := by
  unfold create
  split
  · rfl
  · cases parent <;> rfl

namespace ReadState

/-! ## What an item does -/

/-- The count in the multi-bulk header that the next item reads, if it reads
one. -/
def multiBulkCount {σ : Type} (s : ReadState σ) (xs : List UInt8) : Option ℤ :=
  let type := if s.cur.type = none then xs.head?.bind RedisReader.typeOfByte else s.cur.type
  let line := if s.cur.type = none then xs.tail else xs
  if type = some .array ∧ s.ridx ≠ 8 then (seekNewline line).map fun _ ↦ readLongLong line
  else none

theorem setType_self {σ : Type} {s : ReadState σ} {type : ReplyType}
    (h : s.cur.type = some type) : s.setType type = s := by
  have hcur : ({ s.cur with type := some type } : RedisReadTask) = s.rstack s.ridx.toNat := by
    rw [← h]
    rfl
  rw [setType, setCur, hcur, Function.update_eq_self]

theorem multiBulkCount_byte {s : ReadState Heap} (hs : s.cur.type = none) {byte : UInt8}
    {type : ReplyType} (hb : RedisReader.typeOfByte byte = some type) (xs : List UInt8) :
    s.multiBulkCount (byte :: xs) = (s.setType type).multiBulkCount xs := by
  simp [multiBulkCount, hs, hb]

/-- The objects of the items that hold no further items; `count` is the count
that was read. -/
inductive Leaf (count : Option ℤ) : RedisReply → Prop
  | text (type : ReplyType) (bytes : List UInt8)
      (htype : type = .string ∨ type = .status ∨ type = .error) :
      Leaf count (.ofString type bytes)
  | integer (value : ℤ) : Leaf count (.ofInteger value)
  | nil : Leaf count (createReplyObject .nil)
  | empty {c : ℤ} (hc : count = some c) (hle : c ≤ 0) (hne : c ≠ -1) :
      Leaf count (.ofCount (wrap32 c))

/-- The outcomes of an item at `s`. -/
inductive Took (s : ReadState Heap) (count : Option ℤ) :
    Outcome (ReadState Heap) UInt8 Unit → Prop
  | idle (rest : List UInt8) : Took s count (.wait s rest)
  | waits (type : ReplyType) (rest : List UInt8) : Took s count (.wait (s.setType type) rest)
  | unknown (text : String) : Took s count (.fail (s.setError defaultFunctions .protocol text))
  | refuses (type : ReplyType) (text : String) :
      Took s count (.fail ((s.setType type).setError defaultFunctions .protocol text))
  | starves (type : ReplyType) (r : RedisReply) (hoom : s.store.oom s.store.calls = true) :
      Took s count (.fail ((s.made type r).setError defaultFunctions .oom oomError))
  | closes (type : ReplyType) {r : RedisReply} (hoom : s.store.oom s.store.calls = false)
      (hr : Leaf count r) (rest : List UInt8) :
      Took s count (.emit () ((s.made type r).closeItem s.store.cells.length) rest)
  | opens {c : ℤ} (hoom : s.store.oom s.store.calls = false) (hc : count = some c)
      (hpos : 0 < c) (rest : List UInt8) :
      Took s count (.emit () (openArray (s.ridx = 0) c s.store.cells.length
        (s.made .array (.ofCount (wrap32 c)))) rest)

section Took

variable {s : ReadState Heap} {count : Option ℤ}

theorem objectStep_makes (type : ReplyType) (r : RedisReply)
    (next : Obj → ReadState Heap → ReadState Heap) (rest : List UInt8) :
    objectStep defaultFunctions (s.makes type r) next rest =
      if s.store.oom s.store.calls then
        .fail ((s.made type r).setError defaultFunctions .oom oomError)
      else .emit () (next s.store.cells.length (s.made type r)) rest := by
  rw [objectStep, makes, Heap.create_fst]
  cases s.store.oom s.store.calls <;> rfl

theorem took_leaf {type : ReplyType} {r : RedisReply} (hr : Leaf count r)
    {next : Obj → ReadState Heap → ReadState Heap}
    (hnext : ∀ obj, next obj (s.made type r) = (s.made type r).closeItem obj)
    (rest : List UInt8) :
    Took s count (objectStep defaultFunctions (s.makes type r) next rest) := by
  rw [objectStep_makes]
  cases hoom : s.store.oom s.store.calls with
  | true => exact .starves type r hoom
  | false =>
      simp only [Bool.false_eq_true, if_false, hnext]
      exact .closes type hoom hr rest

theorem makeArray_ofCount (s : ReadState Heap) (type : ReplyType) (c : ℤ) :
    (s.setType type).makeArray defaultFunctions c = s.makes type (.ofCount (wrap32 c)) := rfl

theorem took_line {type : ReplyType}
    (htype : type = .status ∨ type = .error ∨ type = .integer) (xs : List UInt8) :
    Took s count ((s.setType type).lineStep defaultFunctions xs) := by
  unfold lineStep
  cases hn : seekNewline xs with
  | none => exact .waits type xs
  | some n =>
      simp only [setType_type, Option.getD_some]
      by_cases hint : type = .integer
      · rw [if_pos (congrArg some hint), makeInteger_default]
        exact took_leaf (.integer _) (fun _ ↦ rfl) _
      · rw [if_neg (by simpa using hint), makeString_default]
        apply took_leaf (.text type _ ?_) fun _ ↦ rfl
        tauto

theorem took_bulk (xs : List UInt8) :
    Took s count ((s.setType .string).bulkStep defaultFunctions xs) := by
  unfold bulkStep
  cases hn : seekNewline xs with
  | none => exact .waits .string xs
  | some n =>
      simp only
      split
      · rw [makeNil_default]
        exact took_leaf .nil (fun _ ↦ rfl) _
      · split
        · rw [makeString_default]
          exact took_leaf (.text .string _ (.inl rfl)) (fun _ ↦ rfl) _
        · exact .waits .string xs

theorem took_array (xs : List UInt8) (hcount : count = (s.setType .array).multiBulkCount xs) :
    Took s count ((s.setType .array).arrayStep defaultFunctions xs) := by
  unfold arrayStep
  by_cases h8 : s.ridx = 8
  · rw [setType_ridx, if_pos h8]
    exact .refuses .array depthError
  rw [setType_ridx, if_neg h8]
  cases hn : seekNewline xs with
  | none => exact .waits .array xs
  | some n =>
      have hc : count = some (readLongLong xs) := by
        rw [hcount]
        simp [multiBulkCount, hn, h8]
      simp only
      by_cases hnil : readLongLong xs = -1
      · rw [if_pos hnil, makeNil_default]
        exact took_leaf .nil (fun obj ↦ closeNil_eq (s := s.made .array _) rfl obj) _
      rw [if_neg hnil, makeArray_ofCount]
      by_cases hpos : 0 < readLongLong xs
      · rw [objectStep_makes]
        cases hoom : s.store.oom s.store.calls with
        | true => exact .starves .array _ hoom
        | false => exact .opens hoom hc hpos _
      · apply took_leaf (.empty hc (not_lt.mp hpos) hnil)
        intro obj
        rw [← closeNil_eq (s := s.made .array _) (n := s.ridx) rfl obj]
        simp only [openArray, closeNil, if_neg hpos]

theorem took_typed (type : ReplyType) (xs : List UInt8)
    (hcount : count = (s.setType type).multiBulkCount xs) :
    Took s count ((s.setType type).typedStep defaultFunctions xs) := by
  unfold typedStep
  rw [setType_type]
  cases type with
  | error => exact took_line (by simp) xs
  | status => exact took_line (by simp) xs
  | integer => exact took_line (by simp) xs
  | string => exact took_bulk xs
  | array => exact took_array xs hcount
  | nil => exact .waits .nil xs

theorem took (s : ReadState Heap) (xs : List UInt8) :
    Took s (s.multiBulkCount xs) (s.itemStep defaultFunctions xs) := by
  unfold itemStep
  cases ht : s.cur.type with
  | none =>
      cases xs with
      | nil => exact .idle []
      | cons byte rest =>
          simp only [if_true]
          cases hb : RedisReader.typeOfByte byte with
          | none => exact .unknown _
          | some type => exact took_typed type rest (multiBulkCount_byte ht hb rest)
  | some type =>
      rw [if_neg (by simp)]
      have hself := setType_self ht
      have htyped := took_typed (s := s) type xs (congrArg (multiBulkCount · xs) hself).symm
      rwa [hself] at htyped

end Took

/-! ## The arrays under construction -/

end ReadState

/-- The task `a.task` describes the array `a`; the task above it is the next
element, or the last one stored when `stored` is 1. -/
structure Slot.Under (a : Slot) (s : ReadState Heap) (stored : ℕ) : Prop where
  type : (s.rstack a.task).type = some .array
  obj : (s.rstack a.task).obj = some a.array
  elements : (s.rstack a.task).elements = a.size
  parent : (s.rstack (a.task + 1)).parent = some a.task
  nonneg : 0 ≤ (s.rstack (a.task + 1)).idx
  lt : (s.rstack (a.task + 1)).idx < a.size
  filled : (s.rstack (a.task + 1)).idx + stored = a.filled.length
  cell : s.store.cells[a.array]? = some ⟨RedisReply.ofArray a.size a.filled, 0⟩

/-- The next element of an array that is not full. -/
theorem Slot.Under.next {a : Slot} {s s' : ReadState Heap} (h : a.Under s 1)
    (hlast : (s.rstack (a.task + 1)).idx ≠ (a.size : ℤ) - 1)
    (hself : s'.rstack a.task = s.rstack a.task)
    (hparent : (s'.rstack (a.task + 1)).parent = (s.rstack (a.task + 1)).parent)
    (hidx : (s'.rstack (a.task + 1)).idx = (s.rstack (a.task + 1)).idx + 1)
    (hstore : s'.store = s.store) : a.Under s' 0 := by
  have hnonneg := h.nonneg
  have hlt := h.lt
  have hfilled := h.filled
  refine ⟨by rw [hself, h.type], by rw [hself, h.obj], by rw [hself, h.elements],
    hparent.trans h.parent, ?_, ?_, ?_, hstore ▸ h.cell⟩ <;>
  · rw [hidx]
    omega

/-- The arrays under construction, the innermost first.  An array is younger
than the array it lies in, where it was stored already. -/
inductive Tower (s : ReadState Heap) : ℕ → List Slot → Prop
  | nil (stored : ℕ) : Tower s stored []
  | cons {stored : ℕ} {a : Slot} {ks : List Slot} (htask : a.task = ks.length)
      (ha : a.Under s stored) (hlt : ∀ b ∈ ks, b.array < a.array) (h : Tower s 1 ks) :
      Tower s stored (a :: ks)

/-- What is above the arrays may change, and what they do not consist of. -/
theorem Tower.congr {s s' : ReadState Heap} {stored : ℕ} {ks : List Slot}
    (h : Tower s stored ks) (hstack : ∀ i < ks.length, s'.rstack i = s.rstack i)
    (hparent : (s'.rstack ks.length).parent = (s.rstack ks.length).parent)
    (hidx : (s'.rstack ks.length).idx = (s.rstack ks.length).idx)
    (hcells : ∀ b ∈ ks, s'.store.cells[b.array]? = s.store.cells[b.array]?) :
    Tower s' stored ks := by
  induction h with
  | nil => exact .nil _
  | @cons stored a ks htask ha hlt h ih =>
      have hself : s'.rstack ks.length = s.rstack ks.length :=
        hstack ks.length (by simp)
      rw [List.length_cons, ← htask] at hparent hidx
      rw [← htask] at hself
      refine .cons htask ?_ hlt (ih ?_ ?_ ?_ ?_)
      · exact ⟨by rw [hself, ha.type], by rw [hself, ha.obj], by rw [hself, ha.elements],
          by rw [hparent, ha.parent], by rw [hidx]; exact ha.nonneg, by rw [hidx]; exact ha.lt,
          by rw [hidx, ha.filled], by rw [hcells a List.mem_cons_self, ha.cell]⟩
      · intro i hi
        exact hstack i (by rw [List.length_cons]; omega)
      · rw [← htask, hself]
      · rw [← htask, hself]
      · intro b hb
        exact hcells b (List.mem_cons_of_mem a hb)

theorem Tower.uncons {s : ReadState Heap} {stored : ℕ} {a : Slot} {ks : List Slot}
    (h : Tower s stored (a :: ks)) :
    a.task = ks.length ∧ a.Under s stored ∧ (∀ b ∈ ks, b.array < a.array) ∧ Tower s 1 ks := by
  cases h with
  | cons htask ha hlt h => exact ⟨htask, ha, hlt, h⟩

/-- The innermost array, in which the current item is the next element. -/
theorem Tower.head_room {s : ReadState Heap} {a : Slot} {ks : List Slot}
    (h : Tower s 0 (a :: ks)) : a.Room s.store.cells := by
  obtain ⟨-, ha, -, -⟩ := h.uncons
  have hlt := ha.lt
  have hfilled := ha.filled
  exact ⟨ha.cell, by omega⟩

/-- A reply is under way: the `done` objects are older than it, `ks` are its arrays
under construction, and every other object of it satisfies `Q`. -/
structure Underway (Q : RedisReply → Prop) (done : List Cell) (s : ReadState Heap) (stored : ℕ)
    (ks : List Slot) : Prop where
  err : s.err = none
  ridx : s.ridx = ks.length
  le : ks.length ≤ 8
  first : (s.rstack 0).parent = none
  tower : Tower s stored ks
  above : ∀ a ∈ ks, done.length ≤ a.array
  store : s.store.Unfinished done s.reply
  begun : s.reply = none ↔ ks = [] ∧ stored = 0
  complete : ∀ {p : ℕ} {c : Cell}, done.length ≤ p → s.store.cells[p]? = some c →
    Q c.reply ∨ ∃ a ∈ ks, a.array = p

/-- The items of a reply were all read. -/
structure Complete (Q : RedisReply → Prop) (done : List Cell) (s : ReadState Heap) : Prop where
  err : s.err = none
  ridx : s.ridx = -1
  store : s.store.Unfinished done (some done.length)
  reply : s.reply = some done.length
  complete : ∀ {p : ℕ} {c : Cell}, done.length ≤ p → s.store.cells[p]? = some c → Q c.reply

/-- Where the loop over the items stands. -/
def AtItem (Q : RedisReply → Prop) (done : List Cell) (s : ReadState Heap) : Prop :=
  (∃ ks, Underway Q done s 0 ks) ∨ Complete Q done s

theorem AtItem.err {Q : RedisReply → Prop} {done : List Cell} {s : ReadState Heap}
    (h : AtItem Q done s) : s.err = none := by
  rcases h with ⟨ks, h⟩ | h
  · exact h.err
  · exact h.err

section Items

variable {Q : RedisReply → Prop} {done : List Cell} {s : ReadState Heap}

open ReadState

/-- After an item was stored, the arrays that it completes are closed. -/
theorem Underway.moved (hfull : ∀ qs : List Obj, Q (.ofArray qs.length qs)) {ks : List Slot}
    (h : Underway Q done s 1 ks) : AtItem Q done (moveFrom ks.length s) := by
  induction ks generalizing s with
  | nil =>
      obtain ⟨p, hp⟩ := Option.ne_none_iff_exists'.mp
        (show s.reply ≠ none by simpa using h.begun.not)
      obtain ⟨rfl, -⟩ := h.store.some_eq hp
      refine .inr ⟨h.err, rfl, hp ▸ h.store, hp, ?_⟩
      intro q c hq hc
      exact (h.complete hq hc).resolve_right (by simp)
  | cons a ks ih =>
      obtain ⟨htask, ha, hlt, htower⟩ := h.tower.uncons
      have hreply : s.reply ≠ none := by simpa using h.begun.not
      have hcur : s.rstack (ks.length + 1) = s.rstack (a.task + 1) := by rw [htask]
      have hprv : s.rstack ks.length = s.rstack a.task := by rw [htask]
      have hle := h.le
      rw [List.length_cons] at hle
      rw [List.length_cons, ReadState.moveFrom, hcur, hprv, ha.elements]
      by_cases hlast : (s.rstack (a.task + 1)).idx = (a.size : ℤ) - 1
      · rw [if_pos hlast]
        refine ih ⟨h.err, rfl, by omega, h.first, htower.congr (fun _ _ ↦ rfl) rfl rfl
          fun _ _ ↦ rfl, fun b hb ↦ h.above b (List.mem_cons_of_mem a hb), h.store,
          by simpa using hreply, ?_⟩
        intro p c hp hc
        rcases h.complete hp hc with hq | ⟨b, hb, rfl⟩
        · exact .inl hq
        rcases List.mem_cons.mp hb with rfl | hb
        · -- The array that is closed is full.
          have hfilled := ha.filled
          have hsize : b.size = b.filled.length := by omega
          obtain rfl := Option.some.inj (ha.cell.symm.trans hc)
          rw [hsize]
          exact .inl (hfull b.filled)
        · exact .inr ⟨b, hb, rfl⟩
      · rw [if_neg hlast]
        left
        refine ⟨a :: ks, h.err, by simp, by simpa using hle, ?_, ?_, h.above, h.store, ?_,
          h.complete⟩
        · simpa using h.first
        · have hbelow : ∀ t, ∀ i < ks.length + 1,
              Function.update s.rstack (ks.length + 1) t i = s.rstack i :=
            fun t i hi ↦ Function.update_of_ne (by omega) _ _
          refine .cons htask (ha.next hlast (hbelow _ a.task (by omega)) ?_ ?_ rfl) hlt
            (htower.congr (fun i hi ↦ hbelow _ i (by omega))
              (congrArg _ (hbelow _ ks.length (by omega)))
              (congrArg _ (hbelow _ ks.length (by omega))) fun _ _ ↦ rfl)
          · simp only [htask, Function.update_self]
          · simp only [htask, Function.update_self]
        · simpa using hreply

/-- The innermost array has got the object `p`. -/
def fill (p : Obj) : List Slot → List Slot
  | [] => []
  | a :: ks => { a with filled := a.filled ++ [p] } :: ks

@[simp] theorem fill_length (p : Obj) (ks : List Slot) : (fill p ks).length = ks.length := by
  cases ks <;> rfl

theorem mem_fill {p : Obj} {ks : List Slot} {i : Obj} :
    (∃ a ∈ fill p ks, a.array = i) ↔ ∃ a ∈ ks, a.array = i := by
  cases ks <;> simp [fill]

theorem Underway.cur_eq {stored : ℕ} {ks : List Slot} (h : Underway Q done s stored ks) :
    s.cur = s.rstack ks.length := by
  rw [cur, h.ridx, Int.toNat_natCast]

theorem Underway.cur_parent {stored : ℕ} {ks : List Slot} (h : Underway Q done s stored ks) :
    s.cur.parent = ks.head?.map Slot.task := by
  rw [h.cur_eq]
  cases ks with
  | nil => exact h.first
  | cons a ks =>
      obtain ⟨htask, ha, -, -⟩ := h.tower.uncons
      rw [List.length_cons, ← htask]
      exact ha.parent

theorem Underway.aims {ks : List Slot} (h : Underway Q done s 0 ks) (type : ReplyType) :
    Aims (s.setType type).cur (s.setType type).parent ks.head? := by
  have hparent : (s.setType type).cur.parent = ks.head?.map Slot.task := by
    rw [← h.cur_parent]
    simp [setType]
  cases ks with
  | nil => simp [Aims, ReadState.parent, hparent]
  | cons a ks =>
      obtain ⟨htask, ha, -, -⟩ := h.tower.uncons
      have hidx := h.ridx
      rw [List.length_cons, ← htask] at hidx
      have hbelow : (s.setType type).rstack a.task = s.rstack a.task :=
        Function.update_of_ne (by omega) _ _
      refine ⟨s.rstack a.task, ?_, ha.obj, ?_⟩
      · rw [ReadState.parent, hparent, List.head?_cons, Option.map_some, Option.map_some, hbelow]
      · have hcur : (s.setType type).cur.idx = s.cur.idx := by simp [setType]
        rw [hcur, h.cur_eq, List.length_cons, ← htask]
        simpa using ha.filled

theorem Underway.room {ks : List Slot} (h : Underway Q done s 0 ks) :
    ∀ a ∈ ks.head?, a.Room s.store.cells ∧ done.length ≤ a.array := by
  intro a ha
  cases ks with
  | nil => simp at ha
  | cons b ks =>
      obtain rfl : b = a := Option.some.inj ha
      exact ⟨h.tower.head_room, h.above b List.mem_cons_self⟩

/-- The reader after the object `r` was made for the current item. -/
def holding (s : ReadState Heap) (type : ReplyType) (r : RedisReply) : ReadState Heap :=
  (s.made type r).setRoot s.store.cells.length

theorem Underway.holding_store {ks : List Slot} (h : Underway Q done s 0 ks)
    (hoom : s.store.oom s.store.calls = false) (type : ReplyType) (r : RedisReply) :
    (holding s type r).store =
      { s.store with
        calls := s.store.calls + 1
        cells := storeIn s.store.cells ks.head? r } := by
  rw [holding, setRoot_store]
  have hcreate := Heap.create_eq hoom (fun a ha ↦ (h.room a ha).1) (h.aims type) r
  exact congrArg Prod.snd hcreate

theorem Underway.holding_reply {ks : List Slot} (h : Underway Q done s 0 ks)
    (type : ReplyType) (r : RedisReply) : (holding s type r).reply = some done.length := by
  have hridx : (s.made type r).ridx = ks.length := h.ridx
  rw [holding, setRoot, hridx]
  cases ks with
  | nil =>
      have hreply := h.begun.mpr ⟨rfl, rfl⟩
      rw [if_pos (by simp), h.store.none_eq hreply]
  | cons a ks =>
      obtain ⟨p, hp⟩ := Option.ne_none_iff_exists'.mp
        (show s.reply ≠ none by simpa using h.begun.not)
      rw [if_neg (by rw [List.length_cons]; omega)]
      exact hp.trans (congrArg some (h.store.some_eq hp).1)

theorem Underway.hold_complete {ks : List Slot} (h : Underway Q done s 0 ks)
    (hoom : s.store.oom s.store.calls = false) (type : ReplyType) (r : RedisReply) {p : ℕ}
    {c : Cell} (hp : done.length ≤ p) (hc : (holding s type r).store.cells[p]? = some c) :
    (p = s.store.cells.length ∧ c = ⟨r, 0⟩) ∨ Q c.reply ∨ ∃ a ∈ ks, a.array = p := by
  rw [h.holding_store hoom] at hc
  rcases storeIn_cases (fun a ha ↦ (h.room a ha).1) hc with hnew | ⟨a, ha, hpa, -⟩ | ⟨-, hc⟩
  · exact .inl hnew
  · exact .inr (.inr ⟨a, List.mem_of_mem_head? ha, hpa.symm⟩)
  · exact .inr (h.complete hp hc)

theorem Underway.hold_tower {ks : List Slot} (h : Underway Q done s 0 ks)
    (hoom : s.store.oom s.store.calls = false) (type : ReplyType) (r : RedisReply)
    (hbelow : ∀ i < ks.length, (holding s type r).rstack i = s.rstack i)
    (htop : (holding s type r).cur.parent = s.cur.parent ∧
      (holding s type r).cur.idx = s.cur.idx) :
    Tower (holding s type r) 1 (fill s.store.cells.length ks) := by
  have hridx : (holding s type r).ridx = ks.length := by
    rw [holding, setRoot_ridx]
    exact h.ridx
  have hcur : (holding s type r).cur = (holding s type r).rstack ks.length := by
    rw [cur, hridx, Int.toNat_natCast]
  rw [hcur, h.cur_eq] at htop
  have hstore : (holding s type r).store.cells = storeIn s.store.cells ks.head? r :=
    congrArg Heap.cells (h.holding_store hoom type r)
  have hroom : ∀ a ∈ ks.head?, a.Room s.store.cells := fun a ha ↦ (h.room a ha).1
  cases ks with
  | nil => exact .nil 1
  | cons a ks =>
      obtain ⟨htask, ha, hlt, htower⟩ := h.tower.uncons
      have halt := (hroom a rfl).lt_length
      rw [List.length_cons, ← htask] at htop
      have hself := hbelow a.task (by rw [List.length_cons]; omega)
      have hfilled := ha.filled
      refine .cons htask ⟨by rw [hself, ha.type], by rw [hself, ha.obj],
        by rw [hself, ha.elements], by rw [htop.1, ha.parent], by rw [htop.2]; exact ha.nonneg,
        by rw [htop.2]; exact ha.lt, ?_, ?_⟩ hlt (htower.congr ?_ ?_ ?_ ?_)
      · rw [htop.2, List.length_append, List.length_singleton]
        push_cast
        omega
      · rw [hstore]
        exact storeIn_array hroom rfl
      · intro i hi
        exact hbelow i (by rw [List.length_cons]; omega)
      · rw [hbelow _ (by rw [List.length_cons]; omega)]
      · rw [hbelow _ (by rw [List.length_cons]; omega)]
      · intro b hb
        rw [hstore]
        apply storeIn_other ((hlt b hb).trans halt)
        intro a' ha'
        obtain rfl : a = a' := Option.some.inj ha'
        exact (hlt b hb).ne

/-- Making an object without elements for the current item.  Whether the object
is complete is left to the caller. -/
theorem Underway.hold {ks : List Slot} (h : Underway Q done s 0 ks)
    (hoom : s.store.oom s.store.calls = false) (type : ReplyType) {r : RedisReply}
    (hr : r.kids = []) (hsized : r.Sized) :
    Underway (fun _ ↦ True) done (holding s type r) 1 (fill s.store.cells.length ks) := by
  have hreply := h.holding_reply type r
  have hstack : (holding s type r).rstack =
      Function.update s.rstack ks.length { s.cur with type := some type } := by
    rw [holding, setRoot_rstack]
    show (s.setType type).rstack = _
    rw [setType, setCur, h.ridx, Int.toNat_natCast]
  have hsame : ∀ i, ((holding s type r).rstack i).parent = (s.rstack i).parent ∧
      ((holding s type r).rstack i).idx = (s.rstack i).idx := by
    intro i
    rw [hstack]
    by_cases hi : i = ks.length
    · rw [hi, Function.update_self, h.cur_eq]
      exact ⟨rfl, rfl⟩
    · rw [Function.update_of_ne hi]
      exact ⟨rfl, rfl⟩
  have hridx : (holding s type r).ridx = s.ridx := by
    rw [holding, setRoot_ridx]
    rfl
  refine ⟨?_, ?_, by simpa using h.le, ?_, ?_, ?_, ?_, ?_, fun _ _ ↦ .inl trivial⟩
  · rw [holding, setRoot_err]
    exact h.err
  · rw [hridx, fill_length]
    exact h.ridx
  · rw [(hsame 0).1]
    exact h.first
  · apply h.hold_tower hoom type r
    · intro i hi
      rw [hstack, Function.update_of_ne hi.ne]
    · rw [cur, cur, hridx]
      exact hsame _
  · intro a ha
    obtain ⟨b, hb, hba⟩ := mem_fill.mp ⟨a, ha, rfl⟩
    exact hba ▸ h.above b hb
  · rw [h.holding_store hoom, hreply]
    apply h.store.created h.room ?_ hr hsized
    rw [h.begun]
    cases ks <;> simp
  · simp [hreply]

theorem Underway.withComplete {stored : ℕ} {ks : List Slot} (h : Underway Q done s stored ks)
    {Q' : RedisReply → Prop}
    (hcomplete : ∀ {p : ℕ} {c : Cell}, done.length ≤ p → s.store.cells[p]? = some c →
      Q' c.reply ∨ ∃ a ∈ ks, a.array = p) : Underway Q' done s stored ks :=
  { h with complete := hcomplete }

theorem Tower.length_gt {stored : ℕ} {ks : List Slot} (h : Tower s stored ks) :
    ∀ a ∈ ks, s.store.cells.length > a.array := by
  induction h with
  | nil => simp
  | cons htask ha hlt h ih =>
      intro b hb
      rcases List.mem_cons.mp hb with rfl | hb
      · exact (List.getElem?_eq_some_iff.mp ha.cell).1
      · exact ih b hb

/-- Opening the array `p`, which was stored as the current item. -/
theorem Underway.push {ks : List Slot} (h : Underway (fun _ ↦ True) done s 1 ks)
    (hlen : ks.length < 8) (htype : s.cur.type = some .array) {c : ℤ} {size p : ℕ}
    (hc : wrap32 c = size) (hsize : 0 < size)
    (hcell : s.store.cells[p]? = some ⟨.ofArray size [], 0⟩) (hp : done.length ≤ p)
    (hyoung : ∀ a ∈ ks, a.array < p)
    (hcomplete : ∀ {q : ℕ} {c : Cell}, done.length ≤ q → s.store.cells[q]? = some c →
      Q c.reply ∨ q = p ∨ ∃ a ∈ ks, a.array = q) :
    Underway Q done (s.pushTask c p) 0 (⟨ks.length, p, size, []⟩ :: ks) := by
  have hnat : s.ridx.toNat = ks.length := by rw [h.ridx, Int.toNat_natCast]
  have hnat' : (s.ridx + 1).toNat = ks.length + 1 := by
    have := h.ridx
    omega
  have hstack : (s.pushTask c p).rstack = Function.update (Function.update s.rstack ks.length
      { s.cur with elements := size, obj := some p }) (ks.length + 1)
        (freshTask 0 (some ks.length)) := by
    simp only [pushTask, setCur, hnat, hnat', hc]
  have htop : (s.pushTask c p).rstack (ks.length + 1) = freshTask 0 (some ks.length) := by
    rw [hstack, Function.update_self]
  have hself : (s.pushTask c p).rstack ks.length =
      { s.cur with elements := size, obj := some p } := by
    rw [hstack, Function.update_of_ne (by omega), Function.update_self]
  have hbelow : ∀ i < ks.length, (s.pushTask c p).rstack i = s.rstack i := by
    intro i hi
    rw [hstack, Function.update_of_ne (by omega), Function.update_of_ne hi.ne]
  refine ⟨h.err, ?_, by rw [List.length_cons]; omega, ?_, ?_, ?_, h.store, ?_, ?_⟩
  · show s.ridx + 1 = _
    rw [h.ridx, List.length_cons]
    push_cast
    rfl
  · by_cases h0 : 0 < ks.length
    · rw [hbelow 0 h0]
      exact h.first
    · have hnil : ks.length = 0 := by omega
      rw [hnil] at hself
      rw [hself]
      show s.cur.parent = none
      rw [h.cur_eq, hnil]
      exact h.first
  · refine .cons rfl ⟨?_, by rw [hself], by rw [hself], by rw [htop]; rfl,
      by rw [htop]; exact le_rfl, ?_, by rw [htop]; rfl, hcell⟩ hyoung (h.tower.congr hbelow
        (by rw [hself, h.cur_eq]) (by rw [hself, h.cur_eq]) fun _ _ ↦ rfl)
    · rw [hself]
      exact htype
    · rw [htop]
      exact Int.natCast_pos.mpr hsize
  · intro a ha
    rcases List.mem_cons.mp ha with rfl | ha
    · exact hp
    · exact h.above a ha
  · have hreply : s.reply ≠ none := by simpa using h.begun.not
    show s.reply = none ↔ _
    simpa using hreply
  · intro q c' hq hc'
    rcases hcomplete hq hc' with hQ | rfl | ⟨a, ha, haq⟩
    · exact .inl hQ
    · exact .inr ⟨_, List.mem_cons_self, rfl⟩
    · exact .inr ⟨a, List.mem_cons_of_mem _ ha, haq⟩

/-- A failed reader has given up what it had of the reply: each of its objects
was freed once, and the older ones are as they were. -/
structure GaveUp (done : List Cell) (s : ReadState Heap) : Prop where
  err : s.err ≠ none
  ridx : s.ridx = -1
  reply : s.reply = none
  fault : s.store.fault = false
  older : done <+: s.store.cells
  freed : ∀ {p : ℕ} {c : Cell}, done.length ≤ p → s.store.cells[p]? = some c → c.frees = 1

theorem Heap.Unfinished.setError {t : ReadState Heap} (h : t.store.Unfinished done t.reply)
    (type : RedisErr) (text : String) :
    GaveUp done (t.setError defaultFunctions type text) := by
  cases hr : t.reply with
  | none =>
      have hlen := h.none_eq hr
      have hset : t.setError defaultFunctions type text =
          { t with ridx := -1, err := some type, errstr := text } := by
        simp only [ReadState.setError, hr]
      rw [hset]
      refine ⟨by simp, rfl, hr, h.fault, h.older, ?_⟩
      intro p c hp hc
      have := (List.getElem?_eq_some_iff.mp hc).1
      simp only at this
      omega
  | some p =>
      obtain ⟨rfl, -⟩ := h.some_eq hr
      rw [hr] at h
      obtain ⟨hfault, holder, hfreed⟩ := h.free_root
      have hset : t.setError defaultFunctions type text =
          { t with
            store := freeReplyObject done.length t.store
            reply := none
            ridx := -1
            err := some type
            errstr := text } := by
        simp only [ReadState.setError, hr, defaultFunctions]
      rw [hset]
      exact ⟨by simp, rfl, rfl, hfault, holder, hfreed⟩

theorem Underway.setType {stored : ℕ} {ks : List Slot} (h : Underway Q done s stored ks)
    (type : ReplyType) : Underway Q done (s.setType type) stored ks := by
  have hstack : (s.setType type).rstack =
      Function.update s.rstack ks.length { s.cur with type := some type } := by
    rw [ReadState.setType, setCur, h.ridx, Int.toNat_natCast]
  have hsame : ∀ i, ((s.setType type).rstack i).parent = (s.rstack i).parent ∧
      ((s.setType type).rstack i).idx = (s.rstack i).idx := by
    intro i
    rw [hstack]
    by_cases hi : i = ks.length
    · rw [hi, Function.update_self, h.cur_eq]
      exact ⟨rfl, rfl⟩
    · rw [Function.update_of_ne hi]
      exact ⟨rfl, rfl⟩
  refine ⟨h.err, h.ridx, h.le, (hsame 0).1.trans h.first, h.tower.congr ?_ (hsame _).1
    (hsame _).2 fun _ _ ↦ rfl, h.above, h.store, h.begun, h.complete⟩
  intro i hi
  rw [hstack, Function.update_of_ne hi.ne]

/-- What counts that satisfy `P` and objects that satisfy `Q` have to do with
each other. -/
structure Suits (P : ℤ → Prop) (Q : RedisReply → Prop) : Prop where
  fits : ∀ c, P c → 0 < c → 0 < wrap32 c
  full : ∀ qs : List Obj, Q (.ofArray qs.length qs)
  leaf : ∀ {count : Option ℤ} {r : RedisReply}, (∀ c ∈ count, P c) → Leaf count r → Q r

theorem ReadState.Leaf.kids {count : Option ℤ} {r : RedisReply} (h : Leaf count r) :
    r.kids = [] := by
  cases h with
  | text type bytes htype => rcases htype with rfl | rfl | rfl <;> rfl
  | integer value => rfl
  | nil => rfl
  | empty => exact RedisReply.kids_ofCount _

theorem ReadState.Leaf.sized {count : Option ℤ} {r : RedisReply} (h : Leaf count r) : r.Sized := by
  cases h with
  | text => simp [RedisReply.Sized, RedisReply.ofString, createReplyObject]
  | integer => simp [RedisReply.Sized, RedisReply.ofInteger, createReplyObject]
  | nil => simp [RedisReply.Sized, createReplyObject]
  | empty => exact RedisReply.sized_ofCount _

theorem openArray_eq {c : ℤ} (hc : 0 < c) (r : RedisReply) :
    openArray (s.ridx = 0) c s.store.cells.length (s.made .array r) =
      (holding s .array r).pushTask c s.store.cells.length := by
  have hridx : (s.made .array r).ridx = s.ridx := rfl
  rw [openArray, if_pos hc, holding, setRoot, hridx]
  by_cases h0 : s.ridx = 0
  · simp only [if_pos h0]
    rfl
  · simp only [if_neg h0]

theorem Underway.close (hfull : ∀ qs : List Obj, Q (.ofArray qs.length qs)) {ks : List Slot}
    (h : Underway Q done s 0 ks) (hoom : s.store.oom s.store.calls = false) (type : ReplyType)
    {r : RedisReply} (hr : r.kids = []) (hsized : r.Sized) (hQ : Q r) :
    AtItem Q done ((s.made type r).closeItem s.store.cells.length) := by
  have hhold : Underway Q done (holding s type r) 1 (fill s.store.cells.length ks) := by
    apply (h.hold hoom type hr hsized).withComplete
    intro p c hp hc
    rcases h.hold_complete hoom type r hp hc with ⟨-, rfl⟩ | hQ' | harr
    · exact .inl hQ
    · exact .inl hQ'
    · exact .inr (mem_fill.mpr harr)
  have hmove : (s.made type r).closeItem s.store.cells.length =
      moveFrom (fill s.store.cells.length ks).length (holding s type r) := by
    have hridx := hhold.ridx
    show (holding s type r).moveToNextTask = _
    rw [moveToNextTask, if_neg (by omega), hridx, Int.toNat_natCast]
  rw [hmove]
  exact hhold.moved hfull

theorem Underway.open {ks : List Slot} (h : Underway Q done s 0 ks)
    (hoom : s.store.oom s.store.calls = false) (hlen : s.ridx ≠ 8) {c : ℤ} (hc : 0 < c)
    (hfits : 0 < wrap32 c) :
    AtItem Q done (openArray (s.ridx = 0) c s.store.cells.length
      (s.made .array (.ofCount (wrap32 c)))) := by
  obtain ⟨size, hsize⟩ : ∃ size : ℕ, wrap32 c = size :=
    ⟨_, (Int.toNat_of_nonneg hfits.le).symm⟩
  have hlt : size < 2 ^ 31 := by
    have : wrap32 c < 2 ^ 31 := by
      unfold wrap32
      have := Int.bmod_lt (x := c) (m := 2 ^ 32) (by decide)
      omega
    omega
  have hcount : RedisReply.ofCount (wrap32 c) = .ofArray size [] := by
    rw [hsize, RedisReply.ofCount_eq hlt]
  have hhold := h.hold hoom .array (RedisReply.kids_ofCount (wrap32 c))
    (RedisReply.sized_ofCount _)
  have hstore := h.holding_store hoom .array (.ofCount (wrap32 c))
  have hbase : done.length ≤ s.store.cells.length := by
    cases hr : s.reply with
    | none => exact (h.store.none_eq hr).ge
    | some p => exact (h.store.some_eq hr).2.le
  have hlen' := h.ridx
  have hle := h.le
  rw [openArray_eq hc]
  refine .inl ⟨_, hhold.push ?_ ?_ hsize (by omega) ?_ hbase ?_ ?_⟩
  · rw [fill_length]
    omega
  · rw [cur, holding, setRoot_ridx, setRoot_rstack]
    exact setType_type s .array
  · rw [hstore, ← hcount]
    exact storeIn_new fun a ha ↦ (h.room a ha).1
  · intro a ha
    obtain ⟨b, hb, hba⟩ := mem_fill.mp ⟨a, ha, rfl⟩
    exact hba ▸ h.tower.length_gt b hb
  · intro p c' hp hc'
    rcases h.hold_complete hoom .array _ hp hc' with ⟨rfl, -⟩ | hQ | harr
    · exact .inr (.inl rfl)
    · exact .inl hQ
    · exact .inr (.inr (mem_fill.mpr harr))

theorem Underway.item {P : ℤ → Prop} (hPQ : Suits P Q) {ks : List Slot}
    (h : Underway Q done s 0 ks) (xs : List UInt8)
    (hcount : s.store.oom s.store.calls = false → ∀ c ∈ s.multiBulkCount xs, P c) :
    match s.itemStep defaultFunctions xs with
    | .wait s' _ => Underway Q done s' 0 ks
    | .emit _ s' _ => AtItem Q done s'
    | .fail s' => GaveUp done s' := by
  have htook := took s xs
  generalize s.itemStep defaultFunctions xs = out at htook
  generalize hn : s.multiBulkCount xs = count at htook hcount
  cases htook with
  | idle rest => exact h
  | waits type rest => exact h.setType type
  | unknown text => exact h.store.setError _ _
  | refuses type text => exact (h.setType type).store.setError _ _
  | starves type r hoom =>
      have hstore : (s.made type r).store = { s.store with calls := s.store.calls + 1 } := by
        show (Heap.create _ _ _ _).2 = _
        simp only [Heap.create, hoom, if_true]
      have hmade : (s.made type r).store.Unfinished done (s.made type r).reply := by
        rw [hstore]
        exact h.store.counted _
      exact hmade.setError .oom oomError
  | closes type hoom hr rest =>
      exact h.close hPQ.full hoom type hr.kids hr.sized (hPQ.leaf (hcount hoom) hr)
  | opens hoom hc hpos rest =>
      have hne : s.ridx ≠ 8 := by
        intro h8
        simp [multiBulkCount, h8, ← hn] at hc
      exact h.open hoom hne hpos (hPQ.fits _ (hcount hoom _ hc) hpos)

end Items

end MuxHiredis
