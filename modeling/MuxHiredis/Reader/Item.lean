import MuxHiredis.Reader.Basic
import MuxHiredis.Lib.Resumable

/-!
# One item, without the buffer

What `processItem` does is decided by the task stack and the unread bytes; where
the bytes lie in the buffer plays no part.  `itemStep` says so: it is
`processItem` as a resumable consumer.
-/

namespace MuxHiredis

open Resumable

variable {σ : Type}

namespace ReadState

/-- The outcome of an item whose object was to be created. -/
def objectStep (fn : RedisReplyObjectFunctions σ) (made : Option Obj × ReadState σ)
    (next : Obj → ReadState σ → ReadState σ) (rest : List UInt8) :
    Outcome (ReadState σ) UInt8 Unit :=
  match made.1 with
  | none => .fail (made.2.setError fn .oom oomError)
  | some obj => .emit () (next obj made.2) rest

/-- Close an item that holds no further items. -/
def closeItem (obj : Obj) (s : ReadState σ) : ReadState σ := (s.setRoot obj).moveToNextTask

def lineStep (fn : RedisReplyObjectFunctions σ) (s : ReadState σ) (xs : List UInt8) :
    Outcome (ReadState σ) UInt8 Unit :=
  match seekNewline xs with
  | none => .wait s xs
  | some n =>
      objectStep fn
        (if s.cur.type = some .integer then s.makeInteger fn (readLongLong xs)
          else s.makeString fn (s.cur.type.getD .nil) (xs.take n))
        closeItem (xs.drop (n + 2))

def bulkStep (fn : RedisReplyObjectFunctions σ) (s : ReadState σ) (xs : List UInt8) :
    Outcome (ReadState σ) UInt8 Unit :=
  match seekNewline xs with
  | none => .wait s xs
  | some n =>
      if readLongLong xs < 0 then
        objectStep fn (s.makeNil fn) closeItem (xs.drop (n + 2))
      else
        let len := (readLongLong xs).toNat
        if n + 2 + len + 2 ≤ xs.length then
          objectStep fn (s.makeString fn .string ((xs.drop (n + 2)).take len)) closeItem
            (xs.drop (n + 2 + len + 2))
        else .wait s xs

/-- Open an array, or close it at once when it is empty. -/
def openArray (root : Prop) [Decidable root] (elements : ℤ) (obj : Obj) (s : ReadState σ) :
    ReadState σ :=
  let s' := if 0 < elements then s.pushTask elements obj else s.moveToNextTask
  if root then { s' with reply := some obj } else s'

/-- Close a nil array. -/
def closeNil (root : Prop) [Decidable root] (obj : Obj) (s : ReadState σ) : ReadState σ :=
  if root then { s.moveToNextTask with reply := some obj } else s.moveToNextTask

def arrayStep (fn : RedisReplyObjectFunctions σ) (s : ReadState σ) (xs : List UInt8) :
    Outcome (ReadState σ) UInt8 Unit :=
  if s.ridx = 8 then .fail (s.setError fn .protocol depthError)
  else
    match seekNewline xs with
    | none => .wait s xs
    | some n =>
        if readLongLong xs = -1 then
          objectStep fn (s.makeNil fn) (closeNil (s.ridx = 0)) (xs.drop (n + 2))
        else
          objectStep fn (s.makeArray fn (readLongLong xs))
            (openArray (s.ridx = 0) (readLongLong xs)) (xs.drop (n + 2))

def typedStep (fn : RedisReplyObjectFunctions σ) (s : ReadState σ) (xs : List UInt8) :
    Outcome (ReadState σ) UInt8 Unit :=
  match s.cur.type with
  | some .error | some .status | some .integer => s.lineStep fn xs
  | some .string => s.bulkStep fn xs
  | some .array => s.arrayStep fn xs
  | _ => .wait s xs

/-- Remember the type of the current item. -/
def setType (s : ReadState σ) (type : ReplyType) : ReadState σ :=
  s.setCur { s.cur with type := some type }

def itemStep (fn : RedisReplyObjectFunctions σ) (s : ReadState σ) (xs : List UInt8) :
    Outcome (ReadState σ) UInt8 Unit :=
  if s.cur.type = none then
    match xs with
    | [] => .wait s []
    | byte :: rest =>
        match RedisReader.typeOfByte byte with
        | some type => (s.setType type).typedStep fn rest
        | none => .fail (s.setError fn .protocol (protocolByteError byte))
  else s.typedStep fn xs

/-! ## The laws of a resumable consumer -/

/-- No error so far.  An item under way has the root of its reply, unless it is
the root; and an array is refused at depth 8 as soon as its type byte is read. -/
structure Wf (s : ReadState σ) : Prop where
  no_err : s.err = none
  ridx_ge : -1 ≤ s.ridx
  root_set : s.ridx ≠ 0 → s.reply ≠ none
  no_deep_array : s.ridx = 8 → s.cur.type ≠ some .array

@[simp] theorem setCur_cur (s : ReadState σ) (t : RedisReadTask) : (s.setCur t).cur = t := by
  simp [setCur, cur]

@[simp] theorem setType_type (s : ReadState σ) (type : ReplyType) :
    (s.setType type).cur.type = some type := by
  simp [setType]

@[simp] theorem setType_ridx (s : ReadState σ) (type : ReplyType) :
    (s.setType type).ridx = s.ridx := rfl

@[simp] theorem makeObject_ridx (s : ReadState σ) (code : ReplyType)
    (create : Option (RedisReadTask → Option RedisReadTask → σ → Option Obj × σ)) :
    (s.makeObject code create).2.ridx = s.ridx := by
  cases create <;> rfl

@[simp] theorem setRoot_ridx (s : ReadState σ) (obj : Obj) : (s.setRoot obj).ridx = s.ridx := by
  unfold setRoot
  split <;> rfl

theorem setRoot_reply_ne_none {s : ReadState σ} (h : s.ridx ≠ 0 → s.reply ≠ none) (obj : Obj) :
    (s.setRoot obj).reply ≠ none := by
  unfold setRoot
  split
  · simp
  · rename_i hne
    exact h hne

@[simp] theorem moveFrom_reply (n : ℕ) (s : ReadState σ) : (moveFrom n s).reply = s.reply := by
  induction n generalizing s with
  | zero => rfl
  | succ n ih =>
      simp only [moveFrom]
      split
      · exact ih _
      · rfl

@[simp] theorem moveFrom_err (n : ℕ) (s : ReadState σ) : (moveFrom n s).err = s.err := by
  induction n generalizing s with
  | zero => rfl
  | succ n ih =>
      simp only [moveFrom]
      split
      · exact ih _
      · rfl

@[simp] theorem moveToNextTask_err (s : ReadState σ) : s.moveToNextTask.err = s.err := by
  unfold moveToNextTask
  split <;> simp

@[simp] theorem setRoot_err (s : ReadState σ) (obj : Obj) : (s.setRoot obj).err = s.err := by
  unfold setRoot
  split <;> rfl

@[simp] theorem moveToNextTask_reply (s : ReadState σ) :
    s.moveToNextTask.reply = s.reply := by
  unfold moveToNextTask
  split <;> simp

/-- Moving on leaves the stack empty or at an item whose type is not known. -/
theorem moveFrom_ridx (n : ℕ) (s : ReadState σ) :
    (moveFrom n s).ridx = -1 ∨
      (0 < (moveFrom n s).ridx ∧ (moveFrom n s).cur.type = none) := by
  induction n generalizing s with
  | zero => exact Or.inl rfl
  | succ n ih =>
      simp only [moveFrom]
      split
      · exact ih _
      · right
        have htoNat : ((n : ℤ) + 1).toNat = n + 1 := by omega
        refine ⟨by show (0 : ℤ) < (n : ℤ) + 1; omega, ?_⟩
        simp [cur, htoNat]

theorem moveToNextTask_ridx {s : ReadState σ} (h : -1 ≤ s.ridx) :
    s.moveToNextTask.ridx = -1 ∨
      (0 < s.moveToNextTask.ridx ∧ s.moveToNextTask.cur.type = none) := by
  unfold moveToNextTask
  split
  · left
    omega
  · exact moveFrom_ridx _ _

theorem wf_moveToNextTask {s : ReadState σ} (herr : s.err = none) (h : -1 ≤ s.ridx)
    (hreply : s.reply ≠ none) : s.moveToNextTask.Wf := by
  refine ⟨by simpa using herr, ?_, fun _ ↦ by simpa using hreply, ?_⟩
  · rcases moveToNextTask_ridx h with hr | ⟨hr, -⟩ <;> omega
  · intro h8
    rcases moveToNextTask_ridx h with hr | ⟨-, ht⟩
    · omega
    · simp [ht]

theorem wf_closeItem {s : ReadState σ} (h : s.Wf) (obj : Obj) : (s.closeItem obj).Wf := by
  refine wf_moveToNextTask ?_ ?_ (setRoot_reply_ne_none h.root_set obj)
  · simpa using h.no_err
  · simpa using h.ridx_ge

/-- For a nil array the root is set after the stack moved on, which makes no
difference. -/
theorem closeNil_eq {s : ReadState σ} {n : ℤ} (hn : s.ridx = n) (obj : Obj) :
    closeNil (n = 0) obj s = s.closeItem obj := by
  subst hn
  unfold closeNil closeItem setRoot
  by_cases h0 : s.ridx = 0
  · simp [h0, moveToNextTask, moveFrom]
  · simp only [if_neg h0]

theorem pushTask_ridx (s : ReadState σ) (elements : ℤ) (obj : Obj) :
    (s.pushTask elements obj).ridx = s.ridx + 1 := rfl

theorem pushTask_cur_type (s : ReadState σ) (elements : ℤ) (obj : Obj) :
    (s.pushTask elements obj).cur.type = none := by
  simp [pushTask, cur, freshTask]

theorem wf_openArray {s : ReadState σ} {n elements : ℤ} (hn : s.ridx = n) (h : s.Wf)
    (obj : Obj) : (openArray (n = 0) elements obj s).Wf := by
  subst hn
  have hroot : s.ridx ≠ 0 → s.reply ≠ none := h.root_set
  by_cases he : 0 < elements
  · by_cases h0 : s.ridx = 0
    · simp only [openArray, if_pos he, if_pos h0]
      refine ⟨h.no_err, ?_, fun _ ↦ by simp, fun _ ↦ ?_⟩
      · show -1 ≤ s.ridx + 1
        omega
      · show (s.pushTask elements obj).cur.type ≠ some .array
        simp [pushTask_cur_type]
    · simp only [openArray, if_pos he, if_neg h0]
      refine ⟨h.no_err, ?_, fun _ ↦ hroot h0, fun _ ↦ by simp [pushTask_cur_type]⟩
      have hge := h.ridx_ge
      rw [pushTask_ridx]
      omega
  · have hnil : openArray (s.ridx = 0) elements obj s = closeNil (s.ridx = 0) obj s := by
      simp only [openArray, closeNil, if_neg he]
    rw [hnil, closeNil_eq rfl]
    exact wf_closeItem h obj

/-- The objects made leave the stack alone. -/
theorem wf_makeObject {s : ReadState σ} (h : s.Wf) (code : ReplyType)
    (create : Option (RedisReadTask → Option RedisReadTask → σ → Option Obj × σ)) :
    (s.makeObject code create).2.Wf := by
  cases create with
  | none => exact h
  | some f => exact ⟨h.no_err, h.ridx_ge, h.root_set, h.no_deep_array⟩

theorem objectStep_append (fn : RedisReplyObjectFunctions σ) (made : Option Obj × ReadState σ)
    (next : Obj → ReadState σ → ReadState σ) (rest ys : List UInt8)
    (step : ReadState σ → List UInt8 → Outcome (ReadState σ) UInt8 Unit) :
    objectStep fn made next (rest ++ ys) =
      (objectStep fn made next rest).extend step ys := by
  unfold objectStep
  cases made.1 <;> rfl

theorem objectStep_emit {fn : RedisReplyObjectFunctions σ} {made : Option Obj × ReadState σ}
    {next : Obj → ReadState σ → ReadState σ} {rest rest' : List UInt8} {s' : ReadState σ}
    {u : Unit} (h : objectStep fn made next rest = .emit u s' rest') :
    rest' = rest ∧ ∃ obj, s' = next obj made.2 := by
  unfold objectStep at h
  cases hm : made.1 with
  | none => simp [hm] at h
  | some obj =>
      simp only [hm, Outcome.emit.injEq] at h
      exact ⟨h.2.2.symm, obj, h.2.1.symm⟩

@[simp] theorem setError_err (fn : RedisReplyObjectFunctions σ) (s : ReadState σ)
    (type : RedisErr) (str : String) : (s.setError fn type str).err = some type := rfl

theorem objectStep_fail {fn : RedisReplyObjectFunctions σ} {made : Option Obj × ReadState σ}
    {next : Obj → ReadState σ → ReadState σ} {rest : List UInt8} {s' : ReadState σ}
    (h : objectStep fn made next rest = .fail s') : s'.err ≠ none := by
  unfold objectStep at h
  cases hm : made.1 with
  | none =>
      simp only [hm, Outcome.fail.injEq] at h
      simp [← h]
  | some obj => simp [hm] at h

theorem objectStep_ne_wait {fn : RedisReplyObjectFunctions σ} {made : Option Obj × ReadState σ}
    {next : Obj → ReadState σ → ReadState σ} {rest rest' : List UInt8} {s' : ReadState σ} :
    objectStep fn made next rest ≠ .wait s' rest' := by
  unfold objectStep
  cases made.1 <;> simp

/-- What a step that reads a header line obeys.  It waits without a trace, and
what it does with a line it has read does not change with more input. -/
structure TypedLaws (s : ReadState σ)
    (step : List UInt8 → Outcome (ReadState σ) UInt8 Unit) : Prop where
  wait_eq : ∀ {xs s' rest}, step xs = .wait s' rest → s' = s ∧ rest = xs
  stable : ∀ xs ys, (∀ s' rest, step xs ≠ .wait s' rest) →
    step (xs ++ ys) = (step xs).extend .wait ys
  emit_lt : ∀ {xs s' rest}, step xs = .emit () s' rest → rest.length < xs.length
  emit_suffix : ∀ {xs s' rest}, step xs = .emit () s' rest → rest <:+ xs
  emit_wf : ∀ {xs s' rest}, s.Wf → step xs = .emit () s' rest → s'.Wf
  fail_err : ∀ {xs s'}, step xs = .fail s' → s'.err ≠ none

theorem lineStep_laws (fn : RedisReplyObjectFunctions σ) (s : ReadState σ) :
    TypedLaws s (s.lineStep fn) where
  wait_eq := by
    intro xs s' rest h
    unfold lineStep at h
    cases hn : seekNewline xs with
    | none =>
        simp only [hn, Outcome.wait.injEq] at h
        exact ⟨h.1.symm, h.2.symm⟩
    | some n =>
        simp only [hn] at h
        exact (objectStep_ne_wait h).elim
  stable := by
    intro xs ys h
    cases hn : seekNewline xs with
    | none => exact (h s xs (by simp [lineStep, hn])).elim
    | some n =>
        have hlt := seekNewline_lt hn
        have hdrop : (xs ++ ys).drop (n + 2) = xs.drop (n + 2) ++ ys :=
          List.drop_append_of_le_length hlt
        have htake : (xs ++ ys).take n = xs.take n :=
          List.take_append_of_le_length (by omega)
        simp only [lineStep, seekNewline_append hn, hn, readLongLong_line_append hn, hdrop, htake]
        exact objectStep_append _ _ _ _ _ _
  emit_lt := by
    intro xs s' rest h
    unfold lineStep at h
    cases hn : seekNewline xs with
    | none => simp [hn] at h
    | some n =>
        simp only [hn] at h
        have hlt := seekNewline_lt hn
        rw [(objectStep_emit h).1, List.length_drop]
        omega
  emit_suffix := by
    intro xs s' rest h
    unfold lineStep at h
    cases hn : seekNewline xs with
    | none => simp [hn] at h
    | some n =>
        simp only [hn] at h
        exact (objectStep_emit h).1 ▸ List.drop_suffix _ _
  emit_wf := by
    intro xs s' rest hwf h
    unfold lineStep at h
    cases hn : seekNewline xs with
    | none => simp [hn] at h
    | some n =>
        simp only [hn] at h
        obtain ⟨-, obj, rfl⟩ := objectStep_emit h
        apply wf_closeItem
        split <;> exact wf_makeObject hwf _ _
  fail_err := by
    intro xs s' h
    unfold lineStep at h
    cases hn : seekNewline xs with
    | none => simp [hn] at h
    | some n =>
        simp only [hn] at h
        exact objectStep_fail h

theorem bulkStep_laws (fn : RedisReplyObjectFunctions σ) (s : ReadState σ) :
    TypedLaws s (s.bulkStep fn) where
  wait_eq := by
    intro xs s' rest h
    unfold bulkStep at h
    cases hn : seekNewline xs with
    | none =>
        simp only [hn, Outcome.wait.injEq] at h
        exact ⟨h.1.symm, h.2.symm⟩
    | some n =>
        simp only [hn] at h
        split at h
        · exact (objectStep_ne_wait h).elim
        · split at h
          · exact (objectStep_ne_wait h).elim
          · simp only [Outcome.wait.injEq] at h
            exact ⟨h.1.symm, h.2.symm⟩
  stable := by
    intro xs ys h
    cases hn : seekNewline xs with
    | none => exact (h s xs (by simp [bulkStep, hn])).elim
    | some n =>
        have hlt := seekNewline_lt hn
        have hline := readLongLong_line_append hn ys
        have hdrop : (xs ++ ys).drop (n + 2) = xs.drop (n + 2) ++ ys :=
          List.drop_append_of_le_length hlt
        by_cases hneg : readLongLong xs < 0
        · simp only [bulkStep, seekNewline_append hn, hn, hline, if_pos hneg, hdrop]
          exact objectStep_append _ _ _ _ _ _
        · by_cases hfit : n + 2 + (readLongLong xs).toNat + 2 ≤ xs.length
          · have hfit' : n + 2 + (readLongLong xs).toNat + 2 ≤ (xs ++ ys).length := by
              rw [List.length_append]
              omega
            have hpay : (xs.drop (n + 2) ++ ys).take (readLongLong xs).toNat =
                (xs.drop (n + 2)).take (readLongLong xs).toNat := by
              apply List.take_append_of_le_length
              rw [List.length_drop]
              omega
            have hrest : (xs ++ ys).drop (n + 2 + (readLongLong xs).toNat + 2) =
                xs.drop (n + 2 + (readLongLong xs).toNat + 2) ++ ys :=
              List.drop_append_of_le_length hfit
            simp only [bulkStep, seekNewline_append hn, hn, hline, if_neg hneg, if_pos hfit,
              if_pos hfit', hdrop, hpay, hrest]
            exact objectStep_append _ _ _ _ _ _
          · exact (h s xs (by simp only [bulkStep, hn, if_neg hneg, if_neg hfit])).elim
  emit_lt := by
    intro xs s' rest h
    unfold bulkStep at h
    cases hn : seekNewline xs with
    | none => simp [hn] at h
    | some n =>
        have hlt := seekNewline_lt hn
        simp only [hn] at h
        split at h
        · rw [(objectStep_emit h).1, List.length_drop]
          omega
        · split at h
          · rw [(objectStep_emit h).1, List.length_drop]
            omega
          · simp at h
  emit_suffix := by
    intro xs s' rest h
    unfold bulkStep at h
    cases hn : seekNewline xs with
    | none => simp [hn] at h
    | some n =>
        simp only [hn] at h
        split at h
        · exact (objectStep_emit h).1 ▸ List.drop_suffix _ _
        · split at h
          · exact (objectStep_emit h).1 ▸ List.drop_suffix _ _
          · simp at h
  emit_wf := by
    intro xs s' rest hwf h
    unfold bulkStep at h
    cases hn : seekNewline xs with
    | none => simp [hn] at h
    | some n =>
        simp only [hn] at h
        split at h
        · obtain ⟨-, obj, rfl⟩ := objectStep_emit h
          exact wf_closeItem (wf_makeObject hwf _ _) obj
        · split at h
          · obtain ⟨-, obj, rfl⟩ := objectStep_emit h
            exact wf_closeItem (wf_makeObject hwf _ _) obj
          · simp at h
  fail_err := by
    intro xs s' h
    unfold bulkStep at h
    cases hn : seekNewline xs with
    | none => simp [hn] at h
    | some n =>
        simp only [hn] at h
        split at h
        · exact objectStep_fail h
        · split at h
          · exact objectStep_fail h
          · simp at h

theorem arrayStep_laws (fn : RedisReplyObjectFunctions σ) (s : ReadState σ) :
    TypedLaws s (s.arrayStep fn) where
  wait_eq := by
    intro xs s' rest h
    unfold arrayStep at h
    split at h
    · simp at h
    · cases hn : seekNewline xs with
      | none =>
          simp only [hn, Outcome.wait.injEq] at h
          exact ⟨h.1.symm, h.2.symm⟩
      | some n =>
          simp only [hn] at h
          split at h <;> exact (objectStep_ne_wait h).elim
  stable := by
    intro xs ys h
    by_cases h8 : s.ridx = 8
    · simp only [arrayStep, if_pos h8, Outcome.extend]
    · cases hn : seekNewline xs with
      | none => exact (h s xs (by simp [arrayStep, h8, hn])).elim
      | some n =>
          have hlt := seekNewline_lt hn
          have hdrop : (xs ++ ys).drop (n + 2) = xs.drop (n + 2) ++ ys :=
            List.drop_append_of_le_length hlt
          simp only [arrayStep, if_neg h8, seekNewline_append hn, hn,
            readLongLong_line_append hn, hdrop]
          split <;> exact objectStep_append _ _ _ _ _ _
  emit_lt := by
    intro xs s' rest h
    unfold arrayStep at h
    split at h
    · simp at h
    · cases hn : seekNewline xs with
      | none => simp [hn] at h
      | some n =>
          have hlt := seekNewline_lt hn
          simp only [hn] at h
          split at h <;>
          · rw [(objectStep_emit h).1, List.length_drop]
            omega
  emit_suffix := by
    intro xs s' rest h
    unfold arrayStep at h
    split at h
    · simp at h
    · cases hn : seekNewline xs with
      | none => simp [hn] at h
      | some n =>
          simp only [hn] at h
          split at h <;> exact (objectStep_emit h).1 ▸ List.drop_suffix _ _
  emit_wf := by
    intro xs s' rest hwf h
    unfold arrayStep at h
    split at h
    · simp at h
    · cases hn : seekNewline xs with
      | none => simp [hn] at h
      | some n =>
          simp only [hn] at h
          split at h
          · obtain ⟨-, obj, rfl⟩ := objectStep_emit h
            rw [closeNil_eq (s := (s.makeNil fn).2) (makeObject_ridx s _ _)]
            exact wf_closeItem (wf_makeObject hwf _ _) obj
          · obtain ⟨-, obj, rfl⟩ := objectStep_emit h
            exact wf_openArray (s := (s.makeArray fn _).2) (makeObject_ridx s _ _)
              (wf_makeObject hwf _ _) obj
  fail_err := by
    intro xs s' h
    unfold arrayStep at h
    split at h
    · simp only [Outcome.fail.injEq] at h
      simp [← h]
    · cases hn : seekNewline xs with
      | none => simp [hn] at h
      | some n =>
          simp only [hn] at h
          split at h <;> exact objectStep_fail h

theorem typedStep_laws (fn : RedisReplyObjectFunctions σ) (s : ReadState σ) :
    TypedLaws s (s.typedStep fn) := by
  have hidle : s.typedStep fn = Outcome.wait s → TypedLaws s (s.typedStep fn) := by
    intro hwait
    rw [hwait]
    refine ⟨?_, fun xs ys h ↦ (h s xs rfl).elim, by simp, by simp, by simp, by simp⟩
    intro xs s' rest h
    rw [Outcome.wait.injEq] at h
    exact ⟨h.1.symm, h.2.symm⟩
  have hline : s.typedStep fn = s.lineStep fn → TypedLaws s (s.typedStep fn) := fun h ↦
    h ▸ lineStep_laws fn s
  cases ht : s.cur.type with
  | none => exact hidle (by funext xs; simp [typedStep, ht])
  | some type =>
      cases type with
      | nil => exact hidle (by funext xs; simp [typedStep, ht])
      | status => exact hline (by funext xs; simp [typedStep, ht])
      | error => exact hline (by funext xs; simp [typedStep, ht])
      | integer => exact hline (by funext xs; simp [typedStep, ht])
      | string =>
          have hs : s.typedStep fn = s.bulkStep fn := by funext xs; simp [typedStep, ht]
          exact hs ▸ bulkStep_laws fn s
      | array =>
          have hs : s.typedStep fn = s.arrayStep fn := by funext xs; simp [typedStep, ht]
          exact hs ▸ arrayStep_laws fn s

/-- An item of known type resumes as the same item. -/
theorem typedStep_append (fn : RedisReplyObjectFunctions σ) {s : ReadState σ}
    (hs : s.cur.type ≠ none) (xs ys : List UInt8) :
    s.typedStep fn (xs ++ ys) = (s.typedStep fn xs).extend (itemStep fn) ys := by
  have hlaws := typedStep_laws fn s
  cases hstep : s.typedStep fn xs with
  | wait s' rest =>
      obtain ⟨rfl, rfl⟩ := hlaws.wait_eq hstep
      simp only [Outcome.extend, itemStep, if_neg hs]
  | emit u s' rest =>
      rw [hlaws.stable xs ys (by simp [hstep]), hstep]
      rfl
  | fail s' =>
      rw [hlaws.stable xs ys (by simp [hstep]), hstep]
      rfl

/-- An item that goes on after its type byte was no array at depth 8. -/
theorem wf_setType {s : ReadState σ} (h : s.Wf) (fn : RedisReplyObjectFunctions σ)
    (type : ReplyType) (xs : List UInt8)
    (hfail : ∀ s', (s.setType type).typedStep fn xs ≠ .fail s') :
    (s.setType type).Wf := by
  refine ⟨h.no_err, h.ridx_ge, h.root_set, ?_⟩
  intro h8 htype
  have harray : (s.setType type).typedStep fn xs = (s.setType type).arrayStep fn xs := by
    simp only [typedStep, htype]
  apply hfail
  rw [harray, arrayStep, if_pos h8]

/-- An item waits for its type byte, or refuses it, or goes on as an item of known
type. -/
theorem itemStep_cases (fn : RedisReplyObjectFunctions σ) (s : ReadState σ) (xs : List UInt8) :
    xs = [] ∧ s.itemStep fn xs = .wait s [] ∨
      (∃ str, s.itemStep fn xs = .fail (s.setError fn .protocol str)) ∨
      ∃ t ys, s.itemStep fn xs = t.typedStep fn ys ∧
        (t = s ∧ ys = xs ∨ ∃ byte type, t = s.setType type ∧ xs = byte :: ys) := by
  by_cases ht : s.cur.type = none
  · cases xs with
    | nil => exact .inl ⟨rfl, by simp only [itemStep, if_pos ht]⟩
    | cons byte tail =>
        cases hb : RedisReader.typeOfByte byte with
        | none => exact .inr (.inl ⟨_, by simp only [itemStep, if_pos ht, hb]; rfl⟩)
        | some type =>
            refine .inr (.inr ⟨s.setType type, tail, ?_, .inr ⟨byte, type, rfl, rfl⟩⟩)
            simp only [itemStep, if_pos ht, hb]
  · exact .inr (.inr ⟨s, xs, by simp only [itemStep, if_neg ht], .inl ⟨rfl, rfl⟩⟩)

/-- The item of known type is as well formed, unless it fails. -/
theorem wf_typed {s t : ReadState σ} (h : s.Wf) (fn : RedisReplyObjectFunctions σ)
    {xs ys : List UInt8}
    (hty : t = s ∧ ys = xs ∨ ∃ byte type, t = s.setType type ∧ xs = byte :: ys)
    (hfail : ∀ s', t.typedStep fn ys ≠ .fail s') : t.Wf := by
  rcases hty with ⟨rfl, -⟩ | ⟨byte, type, rfl, -⟩
  · exact h
  · exact wf_setType h fn type ys hfail

/-- `processItem` is a resumable consumer. -/
theorem itemStep_lawful (fn : RedisReplyObjectFunctions σ) : Lawful Wf (itemStep fn) where
  append := by
    intro s _ xs ys
    by_cases ht : s.cur.type = none
    · cases xs with
      | nil => simp [itemStep, ht, Outcome.extend]
      | cons byte rest =>
          simp only [itemStep, if_pos ht, List.cons_append]
          cases hb : RedisReader.typeOfByte byte with
          | none => rfl
          | some type => exact typedStep_append fn (by simp) rest ys
    · simp only [itemStep, if_neg ht]
      exact typedStep_append fn ht xs ys
  emit_lt := by
    intro s xs u s' rest h
    rcases itemStep_cases fn s xs with ⟨-, heq⟩ | ⟨str, heq⟩ | ⟨t, ys, heq, hty⟩ <;>
      rw [heq] at h
    · simp at h
    · simp at h
    · have hlt := (typedStep_laws fn t).emit_lt h
      rcases hty with ⟨-, rfl⟩ | ⟨byte, type, -, rfl⟩
      · exact hlt
      · exact hlt.trans (Nat.lt_succ_self _)
  emit_inv := by
    intro s xs u s' rest hwf h
    rcases itemStep_cases fn s xs with ⟨-, heq⟩ | ⟨str, heq⟩ | ⟨t, ys, heq, hty⟩ <;>
      rw [heq] at h
    · simp at h
    · simp at h
    · exact (typedStep_laws fn t).emit_wf (wf_typed hwf fn hty (by simp [h])) h
  wait_inv := by
    intro s xs s' rest hwf h
    rcases itemStep_cases fn s xs with ⟨-, heq⟩ | ⟨str, heq⟩ | ⟨t, ys, heq, hty⟩ <;>
      rw [heq] at h
    · cases h
      exact hwf
    · simp at h
    · rw [((typedStep_laws fn t).wait_eq h).1]
      exact wf_typed hwf fn hty (by simp [h])

/-- What an item leaves unread is the end of what it was given. -/
theorem itemStep_suffix {fn : RedisReplyObjectFunctions σ} {s s' : ReadState σ}
    {xs rest : List UInt8}
    (h : s.itemStep fn xs = .emit () s' rest ∨ s.itemStep fn xs = .wait s' rest) :
    rest <:+ xs := by
  rcases itemStep_cases fn s xs with ⟨hnil, heq⟩ | ⟨str, heq⟩ | ⟨t, ys, heq, hty⟩ <;>
    rw [heq] at h
  · rcases h with h | h
    · simp at h
    · cases h
      exact List.nil_suffix
  · simp at h
  · have hrest : rest <:+ ys := by
      rcases h with h | h
      · exact (typedStep_laws fn t).emit_suffix h
      · exact ((typedStep_laws fn t).wait_eq h).2 ▸ List.suffix_rfl
    rcases hty with ⟨-, rfl⟩ | ⟨byte, type, -, rfl⟩
    · exact hrest
    · exact hrest.trans (List.suffix_cons byte ys)

theorem itemStep_wait_ridx {fn : RedisReplyObjectFunctions σ} {s s' : ReadState σ}
    {xs rest : List UInt8} (h : s.itemStep fn xs = .wait s' rest) : s'.ridx = s.ridx := by
  rcases itemStep_cases fn s xs with ⟨-, heq⟩ | ⟨str, heq⟩ | ⟨t, ys, heq, hty⟩ <;>
    rw [heq] at h
  · cases h
    rfl
  · simp at h
  · rw [((typedStep_laws fn t).wait_eq h).1]
    rcases hty with ⟨rfl, -⟩ | ⟨byte, type, rfl, -⟩
    · rfl
    · exact setType_ridx s type

theorem itemStep_fail {fn : RedisReplyObjectFunctions σ} {s s' : ReadState σ} {xs : List UInt8}
    (h : s.itemStep fn xs = .fail s') : s'.err ≠ none := by
  rcases itemStep_cases fn s xs with ⟨-, heq⟩ | ⟨str, heq⟩ | ⟨t, ys, heq, hty⟩ <;>
    rw [heq] at h
  · simp at h
  · cases h
    simp
  · exact (typedStep_laws fn t).fail_err h

theorem itemStep_nil (fn : RedisReplyObjectFunctions σ) {s : ReadState σ} (h : s.Wf) :
    s.itemStep fn [] = .wait s [] := by
  have hdeep := h.no_deep_array
  unfold itemStep
  cases ht : s.cur.type with
  | none => rfl
  | some type =>
      cases type with
      | array =>
          have h8 : s.ridx ≠ 8 := fun h8 ↦ hdeep h8 ht
          simp [typedStep, ht, arrayStep, h8, seekNewline]
      | _ => simp [typedStep, ht, lineStep, bulkStep, seekNewline]

/-! ## Whole replies -/

/-- With an empty stack the reply is complete; it is handed over together with
the store at that moment, and the next reply starts. -/
def finished (s : ReadState σ) : Option ((Obj × σ) × ReadState σ) :=
  if s.ridx = -1 then
    s.reply.map fun obj ↦ ((obj, s.store), start { s with reply := none })
  else none

/-- The loop of `redisReaderGetReply` as a resumable consumer. -/
def replyStep (fn : RedisReplyObjectFunctions σ) :
    ReadState σ → List UInt8 → Outcome (ReadState σ) UInt8 (Obj × σ) :=
  untilFinished (itemStep fn) finished

theorem wf_finished {s s' : ReadState σ} {b : Obj × σ} (h : s.Wf)
    (hf : finished s = some (b, s')) : s'.Wf := by
  unfold finished at hf
  split at hf
  · rename_i hr
    obtain ⟨obj, -, hs⟩ := Option.map_eq_some_iff.mp hf
    obtain ⟨-, rfl⟩ := Prod.mk.inj hs
    have hstart : start { s with reply := none } =
        { s with
          reply := none
          rstack := Function.update s.rstack 0 (freshTask (-1) none)
          ridx := 0 } := if_pos hr
    rw [hstart]
    exact ⟨h.no_err, by simp, fun h0 ↦ (h0 rfl).elim, by simp⟩
  · simp at hf

theorem replyStep_lawful (fn : RedisReplyObjectFunctions σ) : Lawful Wf (replyStep fn) :=
  (itemStep_lawful fn).untilFinished wf_finished

end ReadState

end MuxHiredis
