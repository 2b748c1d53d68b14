import MuxHiredis.Reader.Chunking
import MuxHiredis.Reader.Building

/-!
# The reply parser as a recursive one

`parse` reads a reply by recursive descent.  A reader does the same with its
stack of tasks: what is left to do after an item of an array, which the parser
keeps in its call stack, is found in the tasks below.
-/

namespace MuxHiredis

open Resumable

/-! ## The recursive parser -/

/-- What a parser makes of its input.  `badCount` is an element count that no
array can have. -/
inductive Parsed (α : Type) where
  | reply (value : α) (rest : List UInt8)
  | incomplete
  | error (text : String)
  | badCount

namespace Parsed

variable {α β : Type}

/-- Go on with what is left of the input. -/
def bind (p : Parsed α) (f : α → List UInt8 → Parsed β) : Parsed β :=
  match p with
  | .reply value rest => f value rest
  | .incomplete => .incomplete
  | .error text => .error text
  | .badCount => .badCount

end Parsed

namespace ReplyTree

/-- The line up to the first `\r\n` and what comes after it.  `next` is told the
length of the line. -/
def parseLine {α : Type} (xs : List UInt8) (next : ℕ → List UInt8 → Parsed α) : Parsed α :=
  match seekNewline xs with
  | none => .incomplete
  | some n => next n (xs.drop (n + 2))

/-- `len` bytes, and two more that are not looked at. -/
def parseBytes (len : ℕ) (xs : List UInt8) : Parsed ReplyTree :=
  if len + 2 ≤ xs.length then .reply (.string (xs.take len)) (xs.drop (len + 2))
  else .incomplete

/-- An item other than an array. -/
def parseScalar (byte : UInt8) (xs : List UInt8) : Parsed ReplyTree :=
  if byte = 45 then parseLine xs fun n rest ↦ .reply (.error (xs.take n)) rest
  else if byte = 43 then parseLine xs fun n rest ↦ .reply (.status (xs.take n)) rest
  else if byte = 58 then parseLine xs fun _ rest ↦ .reply (.integer (readLongLong xs)) rest
  else if byte = 36 then
    parseLine xs fun _ rest ↦
      if readLongLong xs < 0 then .reply .nil rest
      else parseBytes (readLongLong xs).toNat rest
  else .error (protocolByteError byte)

/-- The next `n` items. -/
def parseMany (item : List UInt8 → Parsed ReplyTree) :
    ℕ → List UInt8 → Parsed (List ReplyTree)
  | 0, xs => .reply [] xs
  | n + 1, xs =>
      (item xs).bind fun t rest ↦
        (parseMany item n rest).bind fun ts rest ↦ .reply (t :: ts) rest

def parseArray (item : List UInt8 → Parsed ReplyTree) (xs : List UInt8) : Parsed ReplyTree :=
  parseLine xs fun _ rest ↦
    if readLongLong xs = -1 then .reply .nil rest
    else if 0 ≤ readLongLong xs ∧ readLongLong xs < 2 ^ 31 then
      (parseMany item (readLongLong xs).toNat rest).bind fun ts rest ↦ .reply (.array ts) rest
    else .badCount

/-- An item, in which arrays may be nested `room` deep. -/
def parseItem : ℕ → List UInt8 → Parsed ReplyTree
  | _, [] => .incomplete
  | 0, byte :: xs => if byte = 42 then .error depthError else parseScalar byte xs
  | room + 1, byte :: xs =>
      if byte = 42 then parseArray (parseItem room) xs else parseScalar byte xs

/-- A reply. -/
def parse (xs : List UInt8) : Parsed ReplyTree := parseItem 8 xs

end ReplyTree

/-! ## Following the parser -/

namespace ReadState

theorem replyStep_wait {s s' : ReadState Heap} {xs rest : List UInt8}
    (h : s.itemStep defaultFunctions xs = .wait s' rest) :
    s.replyStep defaultFunctions xs = .wait s' rest := by
  rw [replyStep, untilFinished_eq (itemStep_lawful _), h]

theorem replyStep_fail {s s' : ReadState Heap} {xs : List UInt8}
    (h : s.itemStep defaultFunctions xs = .fail s') :
    s.replyStep defaultFunctions xs = .fail s' := by
  rw [replyStep, untilFinished_eq (itemStep_lawful _), h]

/-- The reader does with `xs` what the parser does; `done` says what it has done
when the parser found something. -/
def Follows {α : Type} (done : α → List UInt8 → Prop) (s : ReadState Heap) (xs : List UInt8) :
    Parsed α → Prop
  | .reply value rest => done value rest
  | .incomplete => ∃ s' rest, s.replyStep defaultFunctions xs = .wait s' rest
  | .error text => ∃ s', s.replyStep defaultFunctions xs = .fail s' ∧
      s'.err = some .protocol ∧ s'.errstr = text
  | .badCount => True

theorem Follows.imp {α : Type} {done done' : α → List UInt8 → Prop} {s : ReadState Heap}
    {xs : List UInt8} {p : Parsed α} (h : Follows done s xs p)
    (hdone : ∀ value rest, done value rest → done' value rest) : Follows done' s xs p := by
  cases p with
  | reply value rest => exact hdone value rest h
  | incomplete => exact h
  | error text => exact h
  | badCount => trivial

theorem Follows.bind {α β : Type} {done : α → List UInt8 → Prop}
    {done' : β → List UInt8 → Prop} {s : ReadState Heap} {xs : List UInt8} {p : Parsed α}
    (h : Follows done s xs p) {f : α → List UInt8 → Parsed β}
    (hf : ∀ value rest, done value rest → Follows done' s xs (f value rest)) :
    Follows done' s xs (p.bind f) := by
  cases p with
  | reply value rest => exact hf value rest h
  | incomplete => exact h
  | error text => exact h
  | badCount => trivial

/-- Complete items before do not show in how the reader stops. -/
theorem Follows.after {α : Type} {done : α → List UInt8 → Prop} {s t : ReadState Heap}
    {xs mid : List UInt8} (hrun : Runs (itemStep defaultFunctions) finished s xs t mid)
    (hopen : finished t = none) {p : Parsed α} (h : Follows done t mid p) :
    Follows done s xs p := by
  have hstep : s.replyStep defaultFunctions xs = t.replyStep defaultFunctions mid :=
    hrun.untilFinished_trans (itemStep_lawful _) hopen
  cases p with
  | reply value rest => exact h
  | incomplete =>
      obtain ⟨s', rest, hwait⟩ := h
      exact ⟨s', rest, hstep.trans hwait⟩
  | error text =>
      obtain ⟨s', hfail, herr⟩ := h
      exact ⟨s', hstep.trans hfail, herr⟩
  | badCount => trivial

theorem Follows.line {done : ReplyTree → List UInt8 → Prop} {s : ReadState Heap}
    (hs : s.cur.type = none) {byte : UInt8} {type : ReplyType}
    (hb : RedisReader.typeOfByte byte = some type) {xs : List UInt8}
    (hwait : seekNewline xs = none →
      (s.setType type).typedStep defaultFunctions xs = .wait (s.setType type) xs)
    {next : ℕ → List UInt8 → Parsed ReplyTree}
    (hnext : ∀ n, seekNewline xs = some n →
      Follows done s (byte :: xs) (next n (xs.drop (n + 2)))) :
    Follows done s (byte :: xs) (ReplyTree.parseLine xs next) := by
  unfold ReplyTree.parseLine
  cases hn : seekNewline xs with
  | none => exact ⟨_, _, replyStep_wait ((itemStep_byte hs hb xs).trans (hwait hn))⟩
  | some n => exact hnext n hn

/-- The item at `s`, which goes into `k`, is the tree `t`. -/
def Reads (s : ReadState Heap) (k : Option Slot) (xs : List UInt8) (t : ReplyTree)
    (rest : List UInt8) : Prop :=
  ∃ u, Decoded s k t u ∧
    Runs (itemStep defaultFunctions) finished s xs u.moveToNextTask rest

/-- The remaining elements of `k` are `ts`. -/
def ReadsAll (s : ReadState Heap) (k : Slot) (xs : List UInt8) (ts : List ReplyTree)
    (rest : List UInt8) : Prop :=
  ∃ u qs, DecodedAll s k ts qs u ∧
    Runs (itemStep defaultFunctions) finished s xs u.moveToNextTask rest

theorem Reads.leaf {s : ReadState Heap} (hq : s.store.Quiet) {k : Option Slot}
    (hk : Placed s k) (type : ReplyType) (r : RedisReply) (t : ReplyTree)
    (ht : ∀ cells : List Cell, cells[s.store.cells.length]? = some ⟨r, 0⟩ →
      ReplyTree.Represents cells s.store.cells.length t) {xs rest : List UInt8}
    (h : s.itemStep defaultFunctions xs =
      objectStep defaultFunctions (s.makes type r) closeItem rest) :
    Reads s k xs t rest := by
  obtain ⟨u, hu, hstep⟩ := decoded_leaf hq hk type r ht rest
  exact ⟨u, hu, runs_item (h.trans hstep)⟩

/-! ## One item without elements -/

section Leaf

variable {s : ReadState Heap} (hq : s.store.Quiet) {k : Option Slot} (hk : Placed s k)
  (hs : s.cur.type = none)

include hq hk hs

theorem follows_string {byte : UInt8} {type : ReplyType}
    (hb : RedisReader.typeOfByte byte = some type) (htype : type = .status ∨ type = .error)
    (tree : List UInt8 → ReplyTree)
    (ht : ∀ line (cells : List Cell) p, cells[p]? = some ⟨.ofString type line, 0⟩ →
      ReplyTree.Represents cells p (tree line)) (xs : List UInt8) :
    Follows (Reads s k (byte :: xs)) s (byte :: xs)
      (ReplyTree.parseLine xs fun n rest ↦ .reply (tree (xs.take n)) rest) := by
  have htyped : (s.setType type).typedStep defaultFunctions xs =
      (s.setType type).lineStep defaultFunctions xs := by
    rcases htype with rfl | rfl <;> simp only [typedStep, setType_type]
  have hint : ¬(some type = some ReplyType.integer) := by
    rcases htype with rfl | rfl <;> simp
  apply Follows.line hs hb
  · intro hn
    rw [htyped, lineStep, hn]
  · intro n hn
    refine Reads.leaf hq hk type (.ofString type (xs.take n)) (tree (xs.take n))
      (ht (xs.take n) · _) ?_
    rw [itemStep_byte hs hb, htyped]
    simp only [lineStep, hn, setType_type, if_neg hint, Option.getD_some, makeString_default]

theorem follows_integer (xs : List UInt8) :
    Follows (Reads s k (58 :: xs)) s (58 :: xs)
      (ReplyTree.parseLine xs fun _ rest ↦ .reply (.integer (readLongLong xs)) rest) := by
  have hb : RedisReader.typeOfByte 58 = some .integer := by decide
  apply Follows.line hs hb
  · intro hn
    simp only [typedStep, setType_type, lineStep, hn]
  · intro n hn
    refine Reads.leaf hq hk .integer (.ofInteger (readLongLong xs))
      (.integer (readLongLong xs)) (fun _ h ↦ h) ?_
    rw [itemStep_byte hs hb]
    simp only [typedStep, setType_type, lineStep, hn, if_true, makeInteger_default]

theorem follows_bulk (xs : List UInt8) :
    Follows (Reads s k (36 :: xs)) s (36 :: xs)
      (ReplyTree.parseLine xs fun _ rest ↦
        if readLongLong xs < 0 then .reply .nil rest
        else ReplyTree.parseBytes (readLongLong xs).toNat rest) := by
  have hb : RedisReader.typeOfByte 36 = some .string := by decide
  have htyped : (s.setType .string).typedStep defaultFunctions xs =
      (s.setType .string).bulkStep defaultFunctions xs := by
    simp only [typedStep, setType_type]
  apply Follows.line hs hb
  · intro hn
    rw [htyped, bulkStep, hn]
  · intro n hn
    have hle := seekNewline_lt hn
    by_cases hneg : readLongLong xs < 0
    · rw [if_pos hneg]
      refine Reads.leaf hq hk .string (createReplyObject .nil) .nil (fun _ h ↦ h) ?_
      rw [itemStep_byte hs hb, htyped]
      simp only [bulkStep, hn, if_pos hneg, makeNil_default]
    · rw [if_neg hneg, ReplyTree.parseBytes, List.length_drop, List.drop_drop]
      by_cases hfit : n + 2 + (readLongLong xs).toNat + 2 ≤ xs.length
      · rw [if_pos (by omega), ← Nat.add_assoc]
        refine Reads.leaf hq hk .string (.ofString .string _) (.string _) (fun _ h ↦ h) ?_
        rw [itemStep_byte hs hb, htyped]
        simp only [bulkStep, hn, if_neg hneg, if_pos hfit, makeString_default]
      · -- The bytes are waited for at the start of the header line.
        rw [if_neg (by omega)]
        refine ⟨s.setType .string, xs, replyStep_wait ?_⟩
        rw [itemStep_byte hs hb, htyped]
        simp only [bulkStep, hn, if_neg hneg, if_neg hfit]

theorem follows_scalar {byte : UInt8} (hbyte : byte ≠ 42) (xs : List UInt8) :
    Follows (Reads s k (byte :: xs)) s (byte :: xs) (ReplyTree.parseScalar byte xs) := by
  unfold ReplyTree.parseScalar
  by_cases h45 : byte = 45
  · rw [if_pos h45]
    subst h45
    exact follows_string hq hk hs (by decide) (.inr rfl) .error (fun _ _ _ h ↦ h) xs
  by_cases h43 : byte = 43
  · rw [if_neg h45, if_pos h43]
    subst h43
    exact follows_string hq hk hs (by decide) (.inl rfl) .status (fun _ _ _ h ↦ h) xs
  by_cases h58 : byte = 58
  · rw [if_neg h45, if_neg h43, if_pos h58]
    subst h58
    exact follows_integer hq hk hs xs
  by_cases h36 : byte = 36
  · rw [if_neg h45, if_neg h43, if_neg h58, if_pos h36]
    subst h36
    exact follows_bulk hq hk hs xs
  · have hnone : RedisReader.typeOfByte byte = none := by
      simp only [RedisReader.typeOfByte, if_neg h45, if_neg h43, if_neg h58, if_neg h36,
        if_neg hbyte]
    rw [if_neg h45, if_neg h43, if_neg h58, if_neg h36]
    refine ⟨s.setError defaultFunctions .protocol (protocolByteError byte),
      replyStep_fail ?_, rfl, rfl⟩
    simp only [itemStep, if_pos hs, hnone]

end Leaf

/-! ## Arrays -/

theorem objectStep_congr {made : Option Obj × ReadState Heap}
    {next next' : Obj → ReadState Heap → ReadState Heap} {rest : List UInt8}
    (h : ∀ obj, next obj made.2 = next' obj made.2) :
    objectStep defaultFunctions made next rest = objectStep defaultFunctions made next' rest := by
  unfold objectStep
  cases made.1 with
  | none => rfl
  | some obj => exact congrArg (Outcome.emit () · rest) (h obj)

/-- Items with `room` for arrays in them are read like the parser reads them. -/
def FollowsItems (room : ℕ) : Prop :=
  ∀ ⦃s : ReadState Heap⦄, s.store.Quiet → ∀ ⦃k : Option Slot⦄, Placed s k →
    s.cur.type = none → ∀ ⦃d : ℕ⦄, s.ridx = d → room + d = 8 → ∀ xs : List UInt8,
      Follows (Reads s k xs) s xs (ReplyTree.parseItem room xs)

/-- The elements of an array, by induction on how many are missing. -/
theorem follows_many {room : ℕ} (hitem : FollowsItems room) {n : ℕ} {s : ReadState Heap}
    (hq : s.store.Quiet) {k : Slot} (hk : k.Open s) (hs : s.cur.type = none)
    (hroom : room + (k.task + 1) = 8) (hsize : k.filled.length + (n + 1) = k.size)
    (xs : List UInt8) :
    Follows (fun ts rest ↦ ts.length = n + 1 ∧ ReadsAll s k xs ts rest) s xs
      (ReplyTree.parseMany (ReplyTree.parseItem room) (n + 1) xs) := by
  induction n generalizing s k xs with
  | zero =>
      refine Follows.bind
        (hitem hq (k := some k) hk hs (by rw [hk.ridx]; push_cast; rfl) hroom xs) ?_
      rintro t rest ⟨u, hu, hrun⟩
      obtain ⟨hmove, hall⟩ := hu.lastElement hk hsize
      exact ⟨rfl, _, _, hall, hmove ▸ hrun⟩
  | succ n ih =>
      refine Follows.bind
        (hitem hq (k := some k) hk hs (by rw [hk.ridx]; push_cast; rfl) hroom xs) ?_
      rintro t mid ⟨u, hu, hrun⟩
      have hidx : u.ridx = k.task + 1 := hu.ridx.trans hk.ridx
      have hmove : u.moveToNextTask = u.nextElement := by
        apply moveToNextTask_next hidx
        rw [hu.below k.task (by have := hk.ridx; omega), hk.elements, hu.idx, hk.idx]
        omega
      rw [hmove] at hrun
      have hnot : finished u.nextElement = none :=
        finished_of_nonneg (by show 0 ≤ u.ridx; omega)
      have hopen := hu.nextOpen hk (by omega)
      have hsize' : (k.filled ++ [s.store.cells.length]).length + (n + 1) = k.size := by
        simp only [List.length_append, List.length_cons, List.length_nil]
        omega
      have htail := ih (s := u.nextElement) hu.quiet hopen
        (by rw [nextElement, setCur_cur]) hroom hsize' mid
      refine Follows.bind (Follows.after hrun hnot htail) ?_
      rintro ts rest ⟨hlen, v, qs, hv, hrun'⟩
      exact ⟨congrArg (· + 1) hlen, v, _, DecodedAll.cons hk hu hv, hrun.trans hnot hrun'⟩

theorem follows_array {room : ℕ} (hitem : FollowsItems room) {s : ReadState Heap}
    (hq : s.store.Quiet) {k : Option Slot} (hk : Placed s k) (hs : s.cur.type = none) {d : ℕ}
    (hd : s.ridx = d) (hroom : room + 1 + d = 8) (xs : List UInt8) :
    Follows (Reads s k (42 :: xs)) s (42 :: xs)
      (ReplyTree.parseArray (ReplyTree.parseItem room) xs) := by
  have hb : RedisReader.typeOfByte 42 = some .array := by decide
  have h8 : s.ridx ≠ 8 := by omega
  have htyped : (s.setType .array).typedStep defaultFunctions xs =
      (s.setType .array).arrayStep defaultFunctions xs := by
    simp only [typedStep, setType_type]
  apply Follows.line hs hb
  · intro hn
    rw [htyped, arrayStep, setType_ridx, if_neg h8, hn]
  intro n hn
  by_cases hnil : readLongLong xs = -1
  · rw [if_pos hnil]
    refine Reads.leaf hq hk .array (createReplyObject .nil) .nil (fun _ h ↦ h) ?_
    rw [itemStep_byte hs hb, htyped, arrayStep, setType_ridx, if_neg h8, hn]
    simp only [if_pos hnil, makeNil_default]
    exact objectStep_congr fun obj ↦
      closeNil_eq (s := s.made .array (createReplyObject .nil)) rfl obj
  rw [if_neg hnil]
  by_cases hcount : 0 ≤ readLongLong xs ∧ readLongLong xs < 2 ^ 31
  swap
  · rw [if_neg hcount]
    trivial
  rw [if_pos hcount]
  obtain ⟨m, hm⟩ : ∃ m : ℕ, readLongLong xs = m := ⟨_, (Int.toNat_of_nonneg hcount.1).symm⟩
  have hlt : m < 2 ^ 31 := by omega
  have hne : ¬((m : ℤ) = -1) := by omega
  have hstep : s.itemStep defaultFunctions (42 :: xs) =
      objectStep defaultFunctions (s.makes .array (.ofArray m []))
        (openArray (s.ridx = 0) m) (xs.drop (n + 2)) := by
    rw [itemStep_byte hs hb, htyped, arrayStep, setType_ridx, if_neg h8, hn]
    simp only [hm, if_neg hne, makeArray_default s .array hlt]
  rw [hm, Int.toNat_natCast]
  cases m with
  | zero =>
      refine Reads.leaf hq hk .array (.ofArray 0 []) (.array [])
        (fun _ h ↦ ⟨[], h, by simp, trivial⟩) (hstep.trans ?_)
      exact objectStep_congr fun obj ↦
        openArray_zero (s := s.made .array (.ofArray 0 [])) rfl obj
  | succ m =>
      obtain ⟨hobj, hquiet, -, hcell⟩ := Heap.create_spec (s := s.setType .array) hq
        (Placed.setType hk .array) (.ofArray (m + 1) [])
      change (s.store.create _ _ _).1 = some s.store.cells.length at hobj
      have hopen := openArray_opened hd (Nat.succ_pos m) hlt s.store.cells.length
      have hslot := hopen.slot (Nat.succ_pos m) hcell
      have hnot := finished_of_nonneg (by rw [hopen.ridx]; omega)
      have hrun := runs_item (hstep.trans (by simp only [objectStep, hobj]; rfl))
      have hmany := follows_many hitem (n := m) (hopen.store ▸ hquiet) hslot
        (by rw [hopen.cur]; rfl) (by show room + (d + 1) = 8; omega) (by simp)
        (xs.drop (n + 2))
      refine Follows.bind (Follows.after hrun hnot hmany) ?_
      rintro ts rest ⟨hlen, u, qs, hu, hrun'⟩
      rw [Nat.succ_eq_add_one, ← hlen] at hopen hu
      exact ⟨u, .ofElements hq hk hd hopen hu, hrun.trans hnot hrun'⟩

/-- By induction on the room for nested arrays. -/
theorem followsItems (room : ℕ) : FollowsItems room := by
  induction room with
  | zero =>
      intro s hq k hk hs d hd hroom xs
      cases xs with
      | nil => exact ⟨s, [], replyStep_wait (by simp only [itemStep, if_pos hs])⟩
      | cons byte xs =>
          by_cases hbyte : byte = 42
          · -- A ninth array is refused before its header line is looked at.
            have h8 : s.ridx = 8 := by omega
            rw [ReplyTree.parseItem, if_pos hbyte, hbyte]
            refine ⟨(s.setType .array).setError defaultFunctions .protocol depthError,
              replyStep_fail ?_, rfl, rfl⟩
            rw [itemStep_byte hs (show RedisReader.typeOfByte 42 = some .array by decide)]
            simp only [typedStep, setType_type, arrayStep]
            exact if_pos h8
          · rw [ReplyTree.parseItem, if_neg hbyte]
            exact follows_scalar hq hk hs hbyte xs
  | succ room ih =>
      intro s hq k hk hs d hd hroom xs
      cases xs with
      | nil => exact ⟨s, [], replyStep_wait (by simp only [itemStep, if_pos hs])⟩
      | cons byte xs =>
          by_cases hbyte : byte = 42
          · rw [ReplyTree.parseItem, if_pos hbyte, hbyte]
            exact follows_array ih hq hk hs hd hroom xs
          · rw [ReplyTree.parseItem, if_neg hbyte]
            exact follows_scalar hq hk hs hbyte xs

/-- The reader hands over the tree `t`, leaves `rest` and is ready for the next
reply. -/
def Delivers (s : ReadState Heap) (xs : List UInt8) (t : ReplyTree) (rest : List UInt8) : Prop :=
  ∃ obj h s', s.replyStep defaultFunctions xs = .emit (obj, h) s' rest ∧
    ReplyTree.Represents h.cells obj t ∧ h.fault = false ∧ s'.Ready

/-- One reply, as the parser reads it. -/
theorem replyStep_parse {s : ReadState Heap} (hs : s.Ready) (xs : List UInt8) :
    Follows (Delivers s xs) s xs (ReplyTree.parse xs) := by
  have hroot : Placed s none := congrArg RedisReadTask.parent hs.cur
  have htype : s.cur.type = none := congrArg RedisReadTask.type hs.cur
  have hitem := followsItems 8 hs.quiet hroot htype (d := 0) hs.ridx rfl xs
  apply hitem.imp
  rintro t rest ⟨u, hu, hrun⟩
  have hreply : u.reply = some s.store.cells.length := hu.reply.trans (if_pos hs.ridx)
  obtain ⟨s', hfin, hready⟩ := finished_root (hu.ridx.trans hs.ridx) hu.quiet hreply
  exact ⟨_, _, s', hrun.untilFinished_eq (itemStep_lawful _) hfin, hu.tree, hu.quiet.fault,
    hready⟩

end ReadState

/-! ## Calling again and again -/

theorem ReplyTree.Represents.iff_eq {cells : List Cell} {p : Obj} {t : ReplyTree}
    (h : Represents cells p t) (t' : ReplyTree) : Represents cells p t' ↔ t' = t :=
  ⟨fun h' ↦ Represents.unique t' t h' h, fun h' ↦ h' ▸ h⟩

/-- What one call for a reply comes to. -/
inductive Answer where
  | reply (t : ReplyTree)
  | incomplete
  | error (text : String)
  | badCount

namespace ReplyTree

/-- The answers of the recursive parser to `n` calls.  A call after a reply
starts where the reply ended; otherwise there is nothing new to say. -/
def answers : ℕ → List UInt8 → List Answer
  | 0, _ => []
  | n + 1, xs =>
      match parse xs with
      | .reply t rest => .reply t :: answers n rest
      | .incomplete => List.replicate (n + 1) .incomplete
      | .error text => List.replicate (n + 1) (.error text)
      | .badCount => List.replicate (n + 1) .badCount

end ReplyTree

namespace RedisReader

/-- `n` calls of `redisReaderGetReply`: what each returns, and the reader after
it. -/
def calls : ℕ → RedisReader Heap → List (Status × Option Obj × RedisReader Heap)
  | 0, _ => []
  | n + 1, r => r.getReply :: calls n r.getReply.2.2

/-- A call of `redisReaderGetReply` gives the answer of the parser.  The objects
it hands over are the tree and no other. -/
def Gives : Status × Option Obj × RedisReader Heap → Answer → Prop
  | (status, obj, r), .reply t =>
      status = .ok ∧ ∃ p, obj = some p ∧
        ∀ t', ReplyTree.Represents r.store.cells p t' ↔ t' = t
  | (status, obj, _), .incomplete => status = .ok ∧ obj = none
  | (status, obj, r), .error text =>
      status = .err ∧ obj = none ∧ r.outcome = some (.protocol, text)
  | _, .badCount => False

theorem calls_waiting (n : ℕ) {r : RedisReader Heap} (h : r.Live) (hwf : r.start.Wf)
    (hwait : r.start.replyStep r.fn r.unread = .wait r.start r.unread) :
    List.Forall₂ Gives (calls n r) (List.replicate n .incomplete) := by
  induction n generalizing r with
  | zero => exact .nil
  | succ n ih =>
      have hget := getReply_eq h hwf (start_ridx_nonneg hwf)
      rw [hwait] at hget
      obtain ⟨r', hr', ⟨hlive, hstart, hunread⟩, hfn⟩ := hget
      rw [calls, hr', List.replicate_succ]
      apply List.Forall₂.cons ⟨rfl, rfl⟩
      exact ih hlive (hstart ▸ hwf) (by rw [hstart, hunread, hfn, hwait])

theorem calls_failed (n : ℕ) {r : RedisReader Heap} {text : String}
    (h : r.outcome = some (.protocol, text)) :
    List.Forall₂ Gives (calls n r) (List.replicate n (.error text)) := by
  have herr : r.err.isSome = true := by
    unfold outcome at h
    cases hr : r.err with
    | none => simp [hr] at h
    | some e => rfl
  have hget : r.getReply = (.err, none, r) := by simp only [getReply, herr, if_true]
  induction n with
  | zero => exact .nil
  | succ n ih =>
      rw [calls, hget, List.replicate_succ]
      exact .cons ⟨rfl, rfl, h⟩ ih

theorem calls_eq (n : ℕ) {r : RedisReader Heap} (h : r.Live) (hfn : r.fn = defaultFunctions)
    (hwf : r.start.Wf) (hready : r.start.Ready)
    (hcount : .badCount ∉ ReplyTree.answers n r.unread) :
    List.Forall₂ Gives (calls n r) (ReplyTree.answers n r.unread) := by
  induction n generalizing r with
  | zero => exact .nil
  | succ n ih =>
      have hlaw := ReadState.replyStep_lawful r.fn
      have hget := getReply_eq h hwf (start_ridx_nonneg hwf)
      have hparse := ReadState.replyStep_parse hready r.unread
      rw [hfn] at hget hlaw
      unfold ReplyTree.answers at hcount ⊢
      cases hp : ReplyTree.parse r.unread with
      | reply t rest =>
          rw [hp] at hparse
          simp only [hp, List.mem_cons, not_or] at hcount ⊢
          obtain ⟨obj, store, s', hstep, htree, -, hready'⟩ := hparse
          have hwf' := hlaw.emit_inv hwf hstep
          rw [hstep] at hget
          obtain ⟨r', hr', hstore, ⟨hlive, hstart, hunread⟩, hfn'⟩ := hget
          rw [calls, hr']
          refine .cons ⟨rfl, obj, rfl, ?_⟩ ?_
          · rw [hstore]
            exact htree.iff_eq
          · subst hunread
            exact ih hlive hfn' (hstart ▸ hwf') (hstart ▸ hready') hcount.2
      | incomplete =>
          rw [hp] at hparse
          obtain ⟨s', rest, hstep⟩ := hparse
          have hwait := step_wait_idem hlaw hwf hstep
          have hwf' := hlaw.wait_inv hwf hstep
          rw [hstep] at hget
          obtain ⟨r', hr', ⟨hlive, hstart, hunread⟩, hfn'⟩ := hget
          rw [calls, hr', List.replicate_succ]
          apply List.Forall₂.cons ⟨rfl, rfl⟩
          apply calls_waiting n hlive (hstart ▸ hwf')
          rw [hstart, hunread, hfn', hwait]
      | error text =>
          rw [hp] at hparse
          obtain ⟨s', hstep, herr, htext⟩ := hparse
          rw [hstep] at hget
          obtain ⟨r', hr', hstate, -⟩ := hget
          have hout : r'.outcome = some (.protocol, text) := by
            rw [outcome, hstate, herr, htext]
            rfl
          rw [calls, hr', List.replicate_succ]
          exact .cons ⟨rfl, rfl, hout⟩ (calls_failed n hout)
      | badCount =>
          simp only [hp] at hcount
          exact (hcount (by simp)).elim

/-- For every input, as long as no element count is out of range, the calls of
`redisReaderGetReply` give the answers of the recursive parser. -/
theorem calls_answers {h : Heap} (hq : h.Quiet) (xs : List UInt8) (n : ℕ)
    (hcount : .badCount ∉ ReplyTree.answers n xs) :
    List.Forall₂ Gives (calls n ((create defaultFunctions h).feed xs).2)
      (ReplyTree.answers n xs) := by
  obtain ⟨hlive, hstate, hunread⟩ := feed_live (create_live defaultFunctions h) xs
  have hstart : ((create defaultFunctions h).feed xs).2.start =
      (create defaultFunctions h).start := by rw [hstate]
  have hnil : (create defaultFunctions h).unread = [] := rfl
  rw [hnil, List.nil_append] at hunread
  have hready : (create defaultFunctions h).start.Ready := ⟨rfl, rfl, hq⟩
  have hall := calls_eq n hlive (feed_fn _ _) (hstart ▸ create_start_wf defaultFunctions h)
    (hstart ▸ hready)
  rw [hunread] at hall
  exact hall hcount

/-- A nested reply, a nil and the beginning of a third reply. -/
theorem calls_answers_nested :
    List.Forall₂ Gives
      (calls 3 ((create defaultFunctions Heap.empty).feed
        [42, 50, 13, 10, 42, 49, 13, 10, 58, 55, 13, 10, 43, 13, 10, 36, 45, 49, 13, 10, 36]).2)
      [.reply (.array [.array [.integer 7], .status []]), .reply .nil, .incomplete] :=
  calls_answers ⟨rfl, fun _ ↦ rfl⟩ _ 3 (by
    change .badCount ∉ [Answer.reply (.array [.array [.integer 7], .status []]),
      .reply .nil, .incomplete]
    simp)

end RedisReader

end MuxHiredis
