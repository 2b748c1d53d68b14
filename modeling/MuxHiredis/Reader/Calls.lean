import MuxHiredis.Lib.Machine
import MuxHiredis.Reader.Chunking
import MuxHiredis.Reader.Stack

/-!
# Feeding and calling

A reader with the default object functions that is fed chunks and asked for
replies in any order, while any create call may run out of memory.
-/

namespace MuxHiredis

namespace RedisReader

/-! ## One call -/

/-- The reader at each pass of the loop of `processItems`. -/
def passes {σ : Type} : ℕ → RedisReader σ → List (RedisReader σ)
  | 0, r => [r]
  | fuel + 1, r =>
      r ::
        if 0 ≤ r.ridx then
          match r.processItem with
          | (.ok, r') => passes fuel r'
          | (.err, _) => []
        else []

/-- The reader at each pass of the loop in the next `redisReaderGetReply`. -/
def nextPasses {σ : Type} (r : RedisReader σ) : List (RedisReader σ) :=
  if r.err.isSome ∨ r.len = 0 then [] else r.started.passes (r.started.unread.length + 1)

/-- Every multi-bulk count that the item at `r` makes an array of satisfies `P`. -/
def Counted (P : ℤ → Prop) (r : RedisReader Heap) : Prop :=
  r.store.oom r.store.calls = false → ∀ c ∈ r.multiBulkCount r.unread, P c

instance (P : ℤ → Prop) [DecidablePred P] (r : RedisReader Heap) : Decidable (r.Counted P) :=
  inferInstanceAs (Decidable (_ → ∀ c ∈ r.multiBulkCount r.unread, P c))

/-- No error so far: the store and the stack are in step. -/
structure Working (Q : RedisReply → Prop) (done : List Cell) (r : RedisReader Heap) : Prop where
  live : r.Live
  fn : r.fn = defaultFunctions
  underway : ∃ ks, Underway Q done r.start 0 ks

/-- After an error the input is dropped as well. -/
structure Broken (done : List Cell) (r : RedisReader Heap) : Prop where
  gaveUp : GaveUp done r.toReadState
  buf : r.buf = none
  pos : r.pos = 0
  len : r.len = 0

/-- A reader inside the loop. -/
structure Looping (Q : RedisReply → Prop) (done : List Cell) (r : RedisReader Heap) : Prop where
  live : r.Live
  fn : r.fn = defaultFunctions
  atItem : AtItem Q done r.toReadState

section Call

variable {P : ℤ → Prop} {Q : RedisReply → Prop} {done : List Cell} {r : RedisReader Heap}

/-- One pass of the loop. -/
theorem Looping.processItem (hPQ : Suits P Q) (h : Looping Q done r) (hr : 0 ≤ r.ridx)
    (hcount : r.Counted P) :
    match r.processItem with
    | (.ok, r') => Looping Q done r'
    | (.err, r') => (Looping Q done r' ∧ 0 ≤ r'.ridx) ∨ Broken done r' := by
  obtain ⟨ks, hks⟩ : ∃ ks, Underway Q done r.toReadState 0 ks := by
    refine h.atItem.resolve_right fun hc ↦ ?_
    have := hc.ridx
    omega
  have hitem := hks.item hPQ r.unread hcount
  rw [processItem_eq h.live, h.fn]
  cases hs : r.itemStep defaultFunctions r.unread with
  | emit u s' rest =>
      rw [hs] at hitem
      obtain ⟨hlive, -⟩ := live_after h.live hitem.err
        (ReadState.itemStep_suffix (.inl hs))
      exact ⟨hlive, h.fn, hitem⟩
  | wait s' rest =>
      rw [hs] at hitem
      obtain ⟨hlive, -⟩ := live_after h.live hitem.err (ReadState.itemStep_suffix (.inr hs))
      refine .inl ⟨⟨hlive, h.fn, .inl ⟨ks, hitem⟩⟩, ?_⟩
      show 0 ≤ s'.ridx
      rw [hitem.ridx]
      exact Int.natCast_nonneg _
  | fail s' =>
      rw [hs] at hitem
      exact .inr ⟨hitem, rfl, rfl, rfl⟩

theorem Looping.processItems (hPQ : Suits P Q) {fuel : ℕ} (h : Looping Q done r)
    (hcount : ∀ t ∈ r.passes fuel, t.Counted P) :
    (Looping Q done (r.processItems fuel) ∨ Broken done (r.processItems fuel)) ∧
      ∀ t ∈ r.passes fuel, Looping Q done t := by
  induction fuel generalizing r with
  | zero => exact ⟨.inl h, by simpa [passes] using h⟩
  | succ fuel ih =>
      unfold RedisReader.processItems
      unfold passes at hcount ⊢
      by_cases hr : 0 ≤ r.ridx
      · have hpass := h.processItem hPQ hr (hcount r List.mem_cons_self)
        simp only [if_pos hr] at hcount ⊢
        generalize r.processItem = out at hpass hcount ⊢
        obtain ⟨status, r'⟩ := out
        cases status with
        | ok =>
            obtain ⟨hloop, hall⟩ := ih hpass fun t ht ↦ hcount t (List.mem_cons_of_mem r ht)
            exact ⟨hloop, by simpa using ⟨h, hall⟩⟩
        | err => exact ⟨hpass.imp_left And.left, by simpa using h⟩
      · simp only [if_neg hr]
        exact ⟨.inl h, by simpa using h⟩

/-- The reader and the store after a reply was handed over. -/
structure HandedOver (Q : RedisReply → Prop) (p : Obj) (h : Heap) (done : List Cell) : Prop where
  store : h.Unfinished done (some p)
  complete : ∀ {q : ℕ} {c : Cell}, done.length ≤ q → h.cells[q]? = some c → Q c.reply

theorem Looping.start (h : Looping Q done r) (hr : 0 ≤ r.ridx) : Working Q done r := by
  refine ⟨h.live, h.fn, ?_⟩
  have hstart : r.start = r.toReadState := if_neg (by omega)
  rw [hstart]
  refine h.atItem.resolve_right fun hc ↦ ?_
  have := hc.ridx
  omega

/-- The next reply starts when nothing is left of the one before. -/
theorem underway_start {s : ReadState Heap} (herr : s.err = none) (hridx : s.ridx = -1)
    (hreply : s.reply = none) (hstore : s.store.Unfinished done none) :
    Underway Q done s.start 0 [] := by
  have hstart : s.start =
      { s with
        rstack := Function.update s.rstack 0 (ReadState.freshTask (-1) none)
        ridx := 0 } := if_pos hridx
  rw [hstart]
  refine ⟨herr, rfl, by simp, ?_, .nil 0, by simp, hreply ▸ hstore, by simp [hreply], ?_⟩
  · simp [ReadState.freshTask]
  · intro p c hp hc
    have := (List.getElem?_eq_some_iff.mp hc).1
    have := hstore.none_eq rfl
    simp only at *
    omega

theorem create_working (oom : ℕ → Bool) :
    Working Q [] (create defaultFunctions ⟨[], false, 0, oom⟩) := by
  refine ⟨create_live _ _, rfl, [], underway_start rfl rfl rfl ?_⟩
  refine ⟨rfl, List.prefix_rfl, ⟨?_, by simp [create]⟩, by simp [create], fun _ ↦ rfl, by simp,
    by simp [create]⟩
  intro p q hq
  simp [kids, create] at hq

theorem Working.feed (h : Working Q done r) (chunk : List UInt8) :
    Working Q done (r.feed chunk).2 := by
  obtain ⟨hlive, hstate, -⟩ := feed_live h.live chunk
  exact ⟨hlive, (feed_fn r chunk).trans h.fn, hstate ▸ h.underway⟩

theorem Broken.feed (h : Broken done r) (chunk : List UInt8) : r.feed chunk = (.err, r) := by
  have herr : r.err.isSome = true := Option.isSome_iff_ne_none.mpr h.gaveUp.err
  simp only [RedisReader.feed, herr, if_true]

theorem Broken.getReply (h : Broken done r) : r.getReply = (.err, none, r) := by
  have herr : r.err.isSome = true := Option.isSome_iff_ne_none.mpr h.gaveUp.err
  simp only [RedisReader.getReply, herr, if_true]

theorem Working.getReply (hPQ : Suits P Q) (h : Working Q done r)
    (hcount : ∀ t ∈ r.nextPasses, t.Counted P) :
    (match r.getReply with
      | (.ok, none, r') => Working Q done r'
      | (.ok, some p, r') => HandedOver Q p r'.store done ∧ Working Q r'.store.cells r'
      | (.err, reply, r') => reply = none ∧ Broken done r') ∧
      ∀ t ∈ r.nextPasses, Looping Q done t := by
  have herr : r.err.isSome = false := by simp [h.live.err]
  by_cases hlen : r.len = 0
  · have hnone : r.nextPasses = [] := by simp [nextPasses, hlen]
    rw [hnone]
    simp only [RedisReader.getReply, herr, Bool.false_eq_true, if_false, if_pos hlen]
    exact ⟨h, by simp⟩
  obtain ⟨ks, hks⟩ := h.underway
  have hpasses : r.nextPasses = r.started.passes (r.started.unread.length + 1) := by
    simp [nextPasses, hlen, herr]
  rw [hpasses] at hcount ⊢
  have hloop : Looping Q done r.started :=
    ⟨⟨hks.err, h.live.buf, h.live.pos⟩, h.fn, .inl ⟨ks, hks⟩⟩
  obtain ⟨hstop, hall⟩ := hloop.processItems hPQ hcount
  refine ⟨?_, hall⟩
  simp only [RedisReader.getReply, herr, Bool.false_eq_true, if_false, if_neg hlen]
  generalize r.started.processItems (r.started.unread.length + 1) = q at hstop
  rcases hstop with hq | hq
  · have hqerr : q.err.isSome = false := by simp [hq.live.err]
    obtain ⟨hlive, -⟩ := discard_live hq.live
    have hdisc : Looping Q done q.discard :=
      ⟨hlive, (discard_fn q).trans hq.fn, by rw [discard_toReadState]; exact hq.atItem⟩
    simp only [hqerr, Bool.false_eq_true, if_false]
    by_cases hr : q.discard.ridx = -1
    · have hc : Complete Q done q.discard.toReadState := by
        refine hdisc.atItem.resolve_left ?_
        rintro ⟨ks, hks⟩
        have := hks.ridx
        omega
      simp only [if_pos hr, hc.reply]
      exact ⟨⟨hc.store, hc.complete⟩, ⟨hlive.err, hlive.buf, hlive.pos⟩, hdisc.fn, [],
        underway_start hc.err hc.ridx rfl hc.store.handed_over⟩
    · simp only [if_neg hr]
      refine hdisc.start ?_
      rcases hdisc.atItem with ⟨ks, hks⟩ | hc
      · rw [hks.ridx]
        exact Int.natCast_nonneg _
      · exact (hr hc.ridx).elim
  · have hqerr : q.err.isSome = true := Option.isSome_iff_ne_none.mpr hq.gaveUp.err
    simp only [hqerr, if_true]
    exact ⟨trivial, hq⟩

end Call

end RedisReader

/-! ## Any order of calls -/

/-- A reader with the default object functions, the objects there were when it
last handed over a reply, and the replies handed over, each with the store of
that moment. -/
structure Parsing where
  reader : RedisReader Heap
  done : List Cell
  replies : List (Obj × Heap)

namespace Parsing

inductive Action where
  | feed (chunk : List UInt8)
  | getReply

def step (s : Parsing) : Action → Option Parsing
  | .feed chunk => some { s with reader := (s.reader.feed chunk).2 }
  | .getReply =>
      match s.reader.getReply with
      | (.ok, some p, r) => some ⟨r, r.store.cells, (p, r.store) :: s.replies⟩
      | (_, _, r) => some { s with reader := r }

/-- A fresh reader, whose create calls run out of memory as `oom` says. -/
def fresh (oom : ℕ → Bool) : Parsing :=
  ⟨.create defaultFunctions ⟨[], false, 0, oom⟩, [], []⟩

def machine : Machine Parsing Action where
  start s := ∃ oom, s = fresh oom
  step := step

/-- The multi-bulk counts that the step makes arrays of satisfy `P`. -/
def Counts (P : ℤ → Prop) (s : Parsing) : Action → Prop
  | .feed _ => True
  | .getReply => ∀ t ∈ s.reader.nextPasses, t.Counted P

instance (P : ℤ → Prop) [DecidablePred P] (s : Parsing) (a : Action) : Decidable (Counts P s a) :=
  match a with
  | .feed _ => .isTrue trivial
  | .getReply => inferInstanceAs (Decidable (∀ t ∈ s.reader.nextPasses, t.Counted P))

/-- The reader is in step with the store, or failed. -/
def InStep (Q : RedisReply → Prop) (s : Parsing) : Prop :=
  (s.reader.Working Q s.done ∨ s.reader.Broken s.done) ∧
    ∀ x ∈ s.replies, x.2.cells <+: s.done ∧ ∃ done, RedisReader.HandedOver Q x.1 x.2 done

variable {P : ℤ → Prop} {Q : RedisReply → Prop} {s : Parsing}

theorem InStep.step (hPQ : Suits P Q) {a : Action} {s' : Parsing} (h : s.InStep Q)
    (hcount : Counts P s a) (hstep : s.step a = some s') : s'.InStep Q := by
  obtain ⟨hw | hb, hreplies⟩ := h
  · cases a with
    | feed chunk =>
        obtain rfl := Option.some.inj hstep
        exact ⟨.inl (hw.feed chunk), hreplies⟩
    | getReply =>
        obtain ⟨hget, -⟩ := hw.getReply hPQ hcount
        unfold Parsing.step at hstep
        rcases hcall : s.reader.getReply with ⟨status, reply, r⟩
        simp only [hcall] at hget hstep
        cases status with
        | err =>
            obtain ⟨rfl, hb⟩ := hget
            obtain rfl := Option.some.inj hstep
            exact ⟨.inr hb, hreplies⟩
        | ok =>
            cases reply with
            | none =>
                obtain rfl := Option.some.inj hstep
                exact ⟨.inl hget, hreplies⟩
            | some p =>
                obtain ⟨hover, hw'⟩ := hget
                obtain rfl := Option.some.inj hstep
                refine ⟨.inl hw', ?_⟩
                intro x hx
                rcases List.mem_cons.mp hx with rfl | hx
                · exact ⟨List.prefix_rfl, s.done, hover⟩
                · exact ⟨(hreplies x hx).1.trans hover.store.older, (hreplies x hx).2⟩
  · -- Nothing happens any more.
    have hsame : s' = s := by
      cases a with
      | feed chunk =>
          rw [Parsing.step, hb.feed chunk] at hstep
          exact (Option.some.inj hstep).symm
      | getReply =>
          simp only [Parsing.step, hb.getReply, Option.some.injEq] at hstep
          exact hstep.symm
    exact hsame ▸ ⟨.inr hb, hreplies⟩

theorem reach_inStep (hPQ : Suits P Q) (hs : machine.Reach (Counts P) s) : s.InStep Q := by
  have hstart : ∀ s, machine.start s → InStep Q s := by
    rintro s ⟨oom, rfl⟩
    exact ⟨.inl (RedisReader.create_working oom), by simp [fresh]⟩
  have hkeep : ∀ s a s', InStep Q s → Counts P s a → machine.step s a = some s' →
      InStep Q s' := by
    intro s a s' h hcount hstep
    exact h.step hPQ hcount hstep
  exact Machine.Reach.invariant hstart hkeep hs

end Parsing

/-! ## Stores into vectors -/

/-- The task `i` is an array with the vector `vec`, and the item of the task
above it is one of its elements. -/
structure Encloses (s : ReadState Heap) (i : ℕ) (vec : List (Option Obj)) : Prop where
  type : (s.rstack i).type = some .array
  vector : ∃ p reply, (s.rstack i).obj = some p ∧ s.store.cells[p]? = some ⟨reply, 0⟩ ∧
    reply.type = .array ∧ reply.element = some vec
  elements : (s.rstack i).elements = vec.length
  idx_nonneg : 0 ≤ (s.rstack (i + 1)).idx
  idx_lt : (s.rstack (i + 1)).idx < (s.rstack i).elements
  parent : (s.rstack (i + 1)).parent = some i

/-- The stack is within its bounds.  The store raises `fault` at a store into a
vector that misses it. -/
structure InBounds (s : ReadState Heap) : Prop where
  ridx_ge : -1 ≤ s.ridx
  ridx_le : s.ridx ≤ 8
  encloses : ∀ i : ℕ, (i : ℤ) < s.ridx → ∃ vec, Encloses s i vec
  fault : s.store.fault = false

theorem Slot.Under.encloses {a : Slot} {s : ReadState Heap} {stored : ℕ} (h : a.Under s stored)
    (hstored : stored ≤ 1) : ∃ vec, Encloses s a.task vec := by
  have hnonneg := h.nonneg
  have hlt := h.lt
  have hfilled := h.filled
  have hsize : 0 < a.size := by omega
  have hlen : (a.filled.map some ++
      List.replicate (a.size - a.filled.length) (none : Option Obj)).length = a.size := by
    simp only [List.length_append, List.length_map, List.length_replicate]
    omega
  refine ⟨_, h.type, ⟨a.array, _, h.obj, h.cell, rfl, ?_⟩, by rw [h.elements, hlen], hnonneg,
    by rw [h.elements]; exact hlt, h.parent⟩
  simp only [RedisReply.ofArray, if_pos hsize]

theorem Tower.encloses {s : ReadState Heap} {stored : ℕ} {ks : List Slot}
    (h : Tower s stored ks) (hstored : stored ≤ 1) :
    ∀ i < ks.length, ∃ vec, Encloses s i vec := by
  induction h with
  | nil => simp
  | @cons stored a ks htask ha hlt h ih =>
      intro i hi
      rw [List.length_cons] at hi
      by_cases hi' : i = ks.length
      · rw [hi', ← htask]
        exact ha.encloses hstored
      · exact ih le_rfl i (by omega)

section InBounds

variable {Q : RedisReply → Prop} {done : List Cell} {s : ReadState Heap}

theorem Underway.inBounds {ks : List Slot} (h : Underway Q done s 0 ks) : InBounds s := by
  have hridx := h.ridx
  have hle := h.le
  refine ⟨by omega, by omega, ?_, h.store.fault⟩
  intro i hi
  exact h.tower.encloses (Nat.zero_le 1) i (by omega)

theorem inBounds_empty (hridx : s.ridx = -1) (hfault : s.store.fault = false) : InBounds s :=
  ⟨by omega, by omega, fun i hi ↦ by omega, hfault⟩

theorem AtItem.inBounds (h : AtItem Q done s) : InBounds s := by
  rcases h with ⟨ks, h⟩ | h
  · exact h.inBounds
  · exact inBounds_empty h.ridx h.store.fault

theorem inBounds_of_start (h : InBounds s.start) : InBounds s := by
  by_cases hr : s.ridx = -1
  · have hfault := h.fault
    simp only [ReadState.start, if_pos hr] at hfault
    exact inBounds_empty hr hfault
  · have hstart : s.start = s := if_neg hr
    exact hstart ▸ h

end InBounds

namespace Parsing

/-- A count above 0 that is still above 0 as an `int`. -/
def Fits (c : ℤ) : Prop := 0 < c → 0 < wrap32 c

instance : DecidablePred Fits := fun _ ↦ inferInstanceAs (Decidable (_ → _))

theorem suits_fits : Suits Fits fun _ ↦ True where
  fits _ h := h
  full _ := trivial
  leaf _ _ := trivial

/-- In every run in which no multi-bulk count above 0 stops being so as an
`int`, the stack is in bounds in every state and at every item, and no store
into a vector misses it. -/
theorem reach_inBounds {s : Parsing} (hs : machine.Reach (Counts Fits) s) :
    InBounds s.reader.toReadState ∧
      (Counts Fits s .getReply → ∀ t ∈ s.reader.nextPasses, InBounds t.toReadState) := by
  obtain ⟨hw | hb, -⟩ := reach_inStep suits_fits hs
  · obtain ⟨ks, hks⟩ := hw.underway
    refine ⟨inBounds_of_start hks.inBounds, ?_⟩
    intro hcount t ht
    exact ((hw.getReply suits_fits hcount).2 t ht).atItem.inBounds
  · refine ⟨inBounds_empty hb.gaveUp.ridx hb.gaveUp.fault, ?_⟩
    intro _ t ht
    have herr : s.reader.err.isSome = true := Option.isSome_iff_ne_none.mpr hb.gaveUp.err
    simp [RedisReader.nextPasses, herr] at ht

/-- An array of two elements, the first of which was read. -/
theorem reach_inBounds_nested :
    ∃ s : Parsing, s.reader.ridx = 1 ∧ s.reader.cur.idx = 1 ∧ InBounds s.reader.toReadState := by
  obtain ⟨s, hrun, hs⟩ := machine.run_spec (fresh fun _ ↦ false)
    [.feed [42, 50, 13, 10, 42, 49, 13], .getReply, .feed [10, 58, 55, 13, 10], .getReply]
    (fun s ↦ decide (s.reader.ridx = 1 ∧ s.reader.cur.idx = 1)) (by decide +kernel)
  obtain ⟨hridx, hidx⟩ := of_decide_eq_true hs
  exact ⟨s, hridx, hidx,
    (reach_inBounds (Machine.Reach.run (.start ⟨_, rfl⟩) (by decide +kernel) hrun)).1⟩

/-- `*4294967296` makes an array without a vector and a task for its first
element, which is stored outside. -/
theorem count_wraps_to_zero :
    ∃ s : Parsing, machine.Reachable s ∧ s.reader.ridx = 1 ∧
      (s.reader.rstack 0).elements = 0 ∧ s.reader.store.fault = true ∧
      ¬InBounds s.reader.toReadState := by
  obtain ⟨s, hrun, hs⟩ := machine.run_spec (fresh fun _ ↦ false)
    [.feed [42, 52, 50, 57, 52, 57, 54, 55, 50, 57, 54, 13, 10, 58, 49, 13, 10], .getReply]
    (fun s ↦ decide (s.reader.ridx = 1 ∧ (s.reader.rstack 0).elements = 0 ∧
      s.reader.store.fault = true)) (by decide +kernel)
  obtain ⟨hridx, helements, hfault⟩ := of_decide_eq_true hs
  refine ⟨s, Machine.Reachable.run (.start ⟨_, rfl⟩) hrun, hridx, helements, hfault, ?_⟩
  intro hin
  exact Bool.false_ne_true (hin.fault.symm.trans hfault)

end Parsing

/-! ## The replies handed over -/

/-- An array has a vector of `elements` objects, or none when it has no
elements; a text has its `len` bytes with a `NUL` after them. -/
def RedisReply.Sound (r : RedisReply) : Prop :=
  match r.type with
  | .array =>
      match r.element with
      | none => r.elements = 0
      | some vec => vec.length = r.elements ∧ none ∉ vec
  | .string | .status | .error => ∃ bytes, r.str = some (bytes ++ [0]) ∧ bytes.length = r.len
  | .integer | .nil => True

/-- The object `p` and the objects below it are sound, and none was freed. -/
inductive WellFormedAt (cells : List Cell) : Obj → Prop
  | intro {p : Obj} {reply : RedisReply} (hcell : cells[p]? = some ⟨reply, 0⟩)
      (hsound : reply.Sound)
      (hbelow : reply.type = .array → ∀ vec ∈ reply.element, ∀ q, some q ∈ vec →
        WellFormedAt cells q) :
      WellFormedAt cells p

theorem RedisReply.Sound.mem_kids {r : RedisReply} (h : r.Sound) (htype : r.type = .array)
    {vec : List (Option Obj)} (hvec : r.element = some vec) {q : Obj} (hq : some q ∈ vec) :
    q ∈ r.kids := by
  simp only [Sound, htype, hvec] at h
  simp only [kids, htype, hvec]
  rw [List.take_of_length_le h.1.le]
  exact List.reduceOption_mem_iff.mpr hq

theorem RedisReply.sound_ofArray (qs : List Obj) : (RedisReply.ofArray qs.length qs).Sound := by
  by_cases hpos : 0 < qs.length
  · simp [Sound, ofArray, createReplyObject, hpos]
  · have hnil : qs = [] := List.length_eq_zero_iff.mp (by omega)
    simp [Sound, ofArray, createReplyObject, hnil]

theorem RedisReply.sound_ofString {type : ReplyType}
    (h : type = .string ∨ type = .status ∨ type = .error) (bytes : List UInt8) :
    (RedisReply.ofString type bytes).Sound := by
  rcases h with rfl | rfl | rfl <;> exact ⟨bytes, rfl, rfl⟩

namespace Parsing

/-- A count that an array can have, or the count of a nil array. -/
def CountInRange (c : ℤ) : Prop := -1 ≤ c ∧ c < 2 ^ 31

instance : DecidablePred CountInRange := fun _ ↦ inferInstanceAs (Decidable (_ ∧ _))

theorem CountInRange.fits {c : ℤ} (h : CountInRange c) : Fits c := by
  intro hpos
  rw [wrap32_of_lt (by omega) h.2]
  exact hpos

theorem suits_sound : Suits CountInRange RedisReply.Sound where
  fits _ h := h.fits
  full := RedisReply.sound_ofArray
  leaf := by
    intro count r hcount hr
    cases hr with
    | text type bytes htype => exact RedisReply.sound_ofString htype bytes
    | integer => trivial
    | nil => trivial
    | empty hc hle hne =>
        have hge := (hcount _ hc).1
        obtain rfl : _ = (0 : ℤ) := le_antisymm hle (by omega)
        exact RedisReply.sound_ofArray []

end Parsing

/-- The objects of a reply lie in the store after those of the replies before;
by induction from the youngest. -/
theorem RedisReader.HandedOver.wellFormed {p : Obj} {h : Heap} {done : List Cell}
    (hover : HandedOver RedisReply.Sound p h done) : WellFormedAt h.cells p := by
  have hbelow : ∀ n q : ℕ, done.length ≤ q → q < h.cells.length → h.cells.length - q = n →
      WellFormedAt h.cells q := by
    intro n
    induction n using Nat.strong_induction_on with
    | _ n ih =>
        intro q hq hlt hn
        obtain ⟨⟨reply, frees⟩, hcell⟩ : ∃ c, h.cells[q]? = some c :=
          ⟨_, List.getElem?_eq_getElem hlt⟩
        obtain rfl : frees = 0 := hover.store.unfreed hq hcell
        have hsound : reply.Sound := hover.complete hq hcell
        refine .intro hcell hsound ?_
        intro htype vec hvec q' hq'
        have hkid : q' ∈ kids h.cells q := by
          rw [kids_eq hcell]
          exact hsound.mem_kids htype hvec hq'
        obtain ⟨hgt, hlt'⟩ : q < q' ∧ q' < h.cells.length :=
          hover.store.freeable.ordered q q' hkid
        exact ih (h.cells.length - q') (by omega) q' (by omega) hlt' rfl
  obtain ⟨rfl, hlt⟩ := hover.store.some_eq rfl
  exact hbelow _ _ le_rfl hlt rfl

namespace Parsing

/-- In every run without multi-bulk counts below -1 or above `INT_MAX`, every
reply handed over is well formed. -/
theorem reach_wellFormed {s : Parsing} (hs : machine.Reach (Counts CountInRange) s) :
    ∀ x ∈ s.replies, WellFormedAt x.2.cells x.1 := by
  intro x hx
  obtain ⟨-, done, hover⟩ := (reach_inStep suits_sound hs).2 x hx
  exact hover.wellFormed

/-- An array of a string and an empty array. -/
theorem reach_wellFormed_pair :
    ∃ s : Parsing, s.replies.map Prod.fst = [0] ∧
      ∀ x ∈ s.replies, WellFormedAt x.2.cells x.1 := by
  obtain ⟨s, hrun, hs⟩ := machine.run_spec (fresh fun _ ↦ false)
    [.feed [42, 50, 13, 10, 36, 49, 13, 10, 97], .getReply,
      .feed [13, 10, 42, 48, 13, 10], .getReply]
    (fun s ↦ decide (s.replies.map Prod.fst = [0])) (by decide +kernel)
  exact ⟨s, of_decide_eq_true hs,
    reach_wellFormed (Machine.Reach.run (.start ⟨_, rfl⟩) (by decide +kernel) hrun)⟩

/-- `*-2` makes an array with `2 ^ 64 - 2` elements and no vector. -/
theorem negative_count_ill_formed :
    ∃ s : Parsing, machine.Reach (Counts fun c ↦ c.natAbs < 2 ^ 31) s ∧
      ∃ x ∈ s.replies, ¬WellFormedAt x.2.cells x.1 := by
  obtain ⟨s, hrun, hs⟩ := machine.run_spec (fresh fun _ ↦ false)
    [.feed [42, 45, 50, 13, 10], .getReply]
    (fun s ↦ decide (s.replies.map (fun x ↦ (x.1, x.2.cells)) =
      [(0, [⟨{ createReplyObject .array with elements := 2 ^ 64 - 2 }, 0⟩])]))
    (by decide +kernel)
  have hreplies := of_decide_eq_true hs
  refine ⟨s, Machine.Reach.run (.start ⟨_, rfl⟩) (by decide +kernel) hrun, ?_⟩
  obtain ⟨x, hx, hfields⟩ := List.mem_map.mp (hreplies ▸ List.mem_singleton_self _)
  obtain ⟨hp, hcells⟩ := Prod.mk.inj hfields
  refine ⟨x, hx, ?_⟩
  rw [hp, hcells]
  rintro ⟨hcell, hsound, -⟩
  obtain ⟨rfl, -⟩ := Cell.mk.inj (Option.some.inj hcell)
  simp [RedisReply.Sound, createReplyObject] at hsound

end Parsing

/-! ## Failure -/

namespace Parsing

theorem broken_run {done : List Cell} {actions : List Action} {s s' : Parsing}
    (h : s.reader.Broken done) (hrun : machine.run s actions = some s') : s' = s := by
  induction actions generalizing s with
  | nil => exact (Option.some.inj hrun).symm
  | cons a actions ih =>
      have hstep : machine.step s a = some s := by
        cases a with
        | feed chunk =>
            show some { s with reader := (s.reader.feed chunk).2 } = some s
            rw [h.feed chunk]
        | getReply =>
            show s.step .getReply = some s
            simp only [Parsing.step, h.getReply]
      rw [Machine.run, hstep] at hrun
      exact ih h hrun

/-- When a call of `redisReaderGetReply` fails, whatever create call ran out of
memory or however the input broke the protocol, the objects of the unfinished
reply were freed once each and those of earlier replies are untouched, the
input and the stack are gone, and so it stays. -/
theorem reach_failure {s : Parsing} (hs : machine.Reach (Counts Fits) s)
    (hcount : Counts Fits s .getReply) {reply : Option Obj} {r : RedisReader Heap}
    (herr : s.reader.getReply = (.err, reply, r)) :
    reply = none ∧
      (∀ i c, s.done.length ≤ i → r.store.cells[i]? = some c → c.frees = 1) ∧
      (∀ x ∈ s.replies, x.2.cells <+: s.done) ∧ s.done <+: r.store.cells ∧
      r.store.fault = false ∧
      r.buf = none ∧ r.pos = 0 ∧ r.len = 0 ∧ r.ridx = -1 ∧ r.reply = none ∧
      ∀ actions s', machine.run { s with reader := r } actions = some s' →
        s' = { s with reader := r } ∧ (∀ chunk, r.feed chunk = (.err, r)) ∧
          r.getReply = (.err, none, r) := by
  obtain ⟨hreader, hreplies⟩ := reach_inStep suits_fits hs
  obtain ⟨hreply, hb⟩ : reply = none ∧ r.Broken s.done := by
    rcases hreader with hw | hb
    · have hget := (hw.getReply suits_fits hcount).1
      rw [herr] at hget
      exact hget
    · rw [hb.getReply] at herr
      obtain ⟨-, hrest⟩ := Prod.mk.inj herr
      obtain ⟨hreply, rfl⟩ := Prod.mk.inj hrest
      exact ⟨hreply.symm, hb⟩
  refine ⟨hreply, fun i c hi hc ↦ hb.gaveUp.freed hi hc, fun x hx ↦ (hreplies x hx).1,
    hb.gaveUp.older, hb.gaveUp.fault, hb.buf, hb.pos, hb.len, hb.gaveUp.ridx, hb.gaveUp.reply, ?_⟩
  intro actions s' hrun
  exact ⟨broken_run (s := { s with reader := r }) hb hrun, hb.feed, hb.getReply⟩

/-- The third object cannot be created: the array and its first element are
freed. -/
theorem reach_failure_oom :
    ∃ (s : Parsing) (reply : Option Obj) (r : RedisReader Heap),
      s.reader.getReply = (.err, reply, r) ∧ s.done.length = 0 ∧ r.store.cells.length = 2 ∧
        ∀ i c, s.done.length ≤ i → r.store.cells[i]? = some c → c.frees = 1 := by
  obtain ⟨s, hrun, hs⟩ := machine.run_spec (fresh fun n ↦ n = 2)
    [.feed [42, 50, 13, 10, 58, 49, 13, 10, 58, 50, 13, 10]]
    (fun s ↦ decide (s.reader.getReply.1 = .err ∧ s.done.length = 0 ∧
      s.reader.getReply.2.2.store.cells.length = 2 ∧ Counts Fits s .getReply))
    (by decide +kernel)
  obtain ⟨herr, hdone, hlen, hcount⟩ := of_decide_eq_true hs
  have hcall : s.reader.getReply =
      (.err, s.reader.getReply.2.1, s.reader.getReply.2.2) := Prod.ext herr rfl
  exact ⟨s, _, _, hcall, hdone, hlen,
    (reach_failure (Machine.Reach.run (.start ⟨_, rfl⟩) (by decide +kernel) hrun) hcount
      hcall).2.1⟩

end Parsing

end MuxHiredis
