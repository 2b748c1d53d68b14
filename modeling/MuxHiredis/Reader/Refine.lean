import MuxHiredis.Reader.Item

/-!
# The reader refines the resumable consumer

A live reader is its task stack and its unread bytes: `processItem` and
`redisReaderGetReply` do on the buffer what `itemStep` and its loop do on the
unread bytes, and the discarding of consumed bytes is not seen.
-/

namespace MuxHiredis

open Resumable

variable {σ : Type}

namespace RedisReader

/-- No error so far, and the cursor lies inside the buffer. -/
structure Live (r : RedisReader σ) : Prop where
  err : r.err = none
  buf : ∃ b, r.buf = some b ∧ r.len = sdslen b
  pos : r.pos ≤ r.len

theorem Live.unread_eq {r : RedisReader σ} (h : r.Live) {b : Sds} (hb : r.buf = some b) :
    r.unread = b.bytes.drop r.pos := by
  obtain ⟨b', hb', hlen⟩ := h.buf
  have hbb : b' = b := Option.some.inj (hb'.symm.trans hb)
  subst hbb
  have hall : b'.bytes.take r.len = b'.bytes := List.take_of_length_le (by rw [hlen]; rfl)
  simp [unread, hb, hall]

theorem Live.unread_length {r : RedisReader σ} (h : r.Live) :
    r.unread.length = r.len - r.pos := by
  obtain ⟨b, hb, hlen⟩ := h.buf
  rw [h.unread_eq hb, List.length_drop, hlen]
  rfl

/-- The reader after an outcome: the cursor stands before what is left. -/
def settle (r : RedisReader σ) : Outcome (ReadState σ) UInt8 Unit → Status × RedisReader σ
  | .emit _ s rest => (.ok, { r with toReadState := s, pos := r.len - rest.length })
  | .wait s rest => (.err, { r with toReadState := s, pos := r.len - rest.length })
  | .fail s => (.err, { r with toReadState := s, buf := none, pos := 0, len := 0 })

theorem settle_wait_self {r : RedisReader σ} (h : r.Live) :
    r.settle (.wait r.toReadState r.unread) = (.err, r) := by
  have hpos : r.len - r.unread.length = r.pos := by
    have := h.unread_length
    have := h.pos
    omega
  simp only [settle, hpos]

theorem withObject_eq {r r' : RedisReader σ} (h : r.Live) {rest : List UInt8}
    (hr' : r' = { r with pos := r.len - rest.length })
    (made : Option Obj × ReadState σ) (next : Obj → ReadState σ → ReadState σ) :
    r'.withObject made next = r.settle (ReadState.objectStep r.fn made next rest) := by
  subst hr'
  obtain ⟨b, hb, -⟩ := h.buf
  unfold withObject ReadState.objectStep
  cases made.1 with
  | none => simp [settle, setErrorOOM, setError, hb]
  | some obj => rfl

theorem processLineItem_eq {r : RedisReader σ} (h : r.Live) :
    r.processLineItem = r.settle (r.lineStep r.fn r.unread) := by
  unfold processLineItem readLine ReadState.lineStep
  cases hn : seekNewline r.unread with
  | none => exact (settle_wait_self h).symm
  | some n =>
      have hlt := seekNewline_lt hn
      have hlen := h.unread_length
      refine withObject_eq h ?_ _ _
      have hpos : r.pos + n + 2 = r.len - (r.unread.drop (n + 2)).length := by
        rw [List.length_drop]
        omega
      simp only [hpos]

theorem processBulkItem_eq {r : RedisReader σ} (h : r.Live) :
    r.processBulkItem = r.settle (r.bulkStep r.fn r.unread) := by
  unfold processBulkItem ReadState.bulkStep
  have hlen := h.unread_length
  have hpos := h.pos
  cases hn : seekNewline r.unread with
  | none => simpa [hn] using (settle_wait_self h).symm
  | some n =>
      have hlt := seekNewline_lt hn
      simp only [hn]
      by_cases hneg : readLongLong r.unread < 0
      · simp only [if_pos hneg]
        refine withObject_eq h ?_ _ _
        have hp : r.pos + (n + 2) = r.len - (r.unread.drop (n + 2)).length := by
          rw [List.length_drop]
          omega
        rw [hp]
      · simp only [if_neg hneg]
        by_cases hfit : n + 2 + (readLongLong r.unread).toNat + 2 ≤ r.unread.length
        · rw [if_pos hfit, if_pos (by omega)]
          refine withObject_eq h ?_ _ _
          have hp : r.pos + (n + 2 + (readLongLong r.unread).toNat + 2) =
              r.len - (r.unread.drop (n + 2 + (readLongLong r.unread).toNat + 2)).length := by
            rw [List.length_drop]
            omega
          rw [hp]
        · rw [if_neg hfit, if_neg (by omega)]
          exact (settle_wait_self h).symm

theorem processMultiBulkItem_eq {r : RedisReader σ} (h : r.Live) :
    r.processMultiBulkItem = r.settle (r.arrayStep r.fn r.unread) := by
  obtain ⟨b, hb, -⟩ := h.buf
  have hlen := h.unread_length
  unfold processMultiBulkItem readLine ReadState.arrayStep
  by_cases h8 : r.ridx = 8
  · simp [h8, settle, setError, hb]
  · simp only [if_neg h8]
    cases hn : seekNewline r.unread with
    | none => exact (settle_wait_self h).symm
    | some n =>
        have hlt := seekNewline_lt hn
        have hpos : r.pos + n + 2 = r.len - (r.unread.drop (n + 2)).length := by
          rw [List.length_drop]
          omega
        simp only
        by_cases hnil : readLongLong r.unread = -1
        · simp only [if_pos hnil]
          exact withObject_eq h (by simp only [hpos]) _ _
        · simp only [if_neg hnil]
          exact withObject_eq h (by simp only [hpos]) _ _

theorem processTyped_eq {r : RedisReader σ} (h : r.Live) :
    r.processTyped = r.settle (r.typedStep r.fn r.unread) := by
  unfold processTyped ReadState.typedStep
  cases r.cur.type with
  | none => exact (settle_wait_self h).symm
  | some type =>
      cases type with
      | error | status | integer => exact processLineItem_eq h
      | string => exact processBulkItem_eq h
      | array => exact processMultiBulkItem_eq h
      | nil => exact (settle_wait_self h).symm

/-- Moving the cursor of a live reader and changing its stack. -/
theorem Live.advance {r : RedisReader σ} (h : r.Live) {s : ReadState σ} (hs : s.err = none)
    {pos : ℕ} (hpos : pos ≤ r.len) :
    ({ r with toReadState := s, pos := pos } : RedisReader σ).Live :=
  ⟨hs, h.buf, hpos⟩

/-- `processItem` is `itemStep` on the unread bytes. -/
theorem processItem_eq {r : RedisReader σ} (h : r.Live) :
    r.processItem = r.settle (r.itemStep r.fn r.unread) := by
  obtain ⟨b, hb, hlen⟩ := h.buf
  have hulen := h.unread_length
  have hp := h.pos
  unfold processItem ReadState.itemStep
  by_cases ht : r.cur.type = none
  · simp only [if_pos ht, readBytes]
    cases hu : r.unread with
    | nil =>
        have hlt : ¬(1 ≤ r.len - r.pos) := by
          rw [hu] at hulen
          simp at hulen
          omega
        simp only [if_neg hlt]
        rw [← hu, settle_wait_self h]
    | cons byte rest =>
        have hle : 1 ≤ r.len - r.pos := by
          rw [hu] at hulen
          simp at hulen
          omega
        simp only [if_pos hle]
        cases hbyte : typeOfByte byte with
        | none => simp [settle, setErrorProtocolByte, setError, hb]
        | some type =>
            have hlive := h.advance (s := r.toReadState.setType type) h.err
              (show r.pos + 1 ≤ r.len by omega)
            have hrest : ({ r with
                toReadState := r.toReadState.setType type, pos := r.pos + 1 } :
                RedisReader σ).unread = rest := by
              rw [hlive.unread_eq hb]
              have hdrop := h.unread_eq hb
              rw [hu] at hdrop
              show b.bytes.drop (r.pos + 1) = rest
              rw [← List.drop_drop, ← hdrop]
              rfl
            have hpt := processTyped_eq hlive
            rw [hrest] at hpt
            simp only
            exact hpt
  · simp only [if_neg ht]
    exact processTyped_eq h

/-! ## The loop of `redisReaderGetReply` -/

/-- The reader stands where a drained consumer stands. -/
def Holds (r : RedisReader σ) : Final (ReadState σ) UInt8 → Prop
  | .waiting s rest => r.Live ∧ r.start = s ∧ r.unread = rest
  | .failed s => r.toReadState = s ∧ r.err ≠ none

/-- The reader once the item loop has stopped. -/
def Stopped (r : RedisReader σ) : Outcome (ReadState σ) UInt8 (Obj × σ) → Prop
  | .emit b s' rest =>
      r.Live ∧ r.ridx = -1 ∧ r.reply = some b.1 ∧ r.store = b.2 ∧
        ReadState.start { r.toReadState with reply := none } = s' ∧ r.unread = rest
  | .wait s' rest => r.Live ∧ 0 ≤ r.ridx ∧ r.toReadState = s' ∧ r.unread = rest
  | .fail s' => r.toReadState = s' ∧ r.err ≠ none

/-- After an outcome that leaves `rest`, the reader is live again and `rest` is
what it has not read. -/
theorem live_after {r : RedisReader σ} (h : r.Live) {s : ReadState σ} {rest : List UInt8}
    (hs : s.err = none) (hrest : rest <:+ r.unread) :
    ({ r with toReadState := s, pos := r.len - rest.length } : RedisReader σ).Live ∧
      ({ r with toReadState := s, pos := r.len - rest.length } : RedisReader σ).unread =
        rest := by
  have hlive := h.advance hs (Nat.sub_le r.len rest.length)
  refine ⟨hlive, ?_⟩
  obtain ⟨b, hb, hlen⟩ := h.buf
  have hul := h.unread_length
  have hp := h.pos
  obtain ⟨pre, hpre⟩ := hrest
  have hpl : pre.length + rest.length = r.unread.length := by
    rw [← hpre, List.length_append]
  have hcur : r.len - rest.length = r.pos + pre.length := by omega
  rw [hlive.unread_eq hb]
  show b.bytes.drop (r.len - rest.length) = rest
  rw [hcur, ← List.drop_drop, ← h.unread_eq hb, ← hpre, List.drop_left]

theorem processItems_stopped {fuel : ℕ} {r : RedisReader σ} (h : r.Live)
    (hwf : r.toReadState.Wf) (hr : 0 ≤ r.ridx) (hfuel : r.unread.length < fuel) :
    (r.processItems fuel).Stopped (r.replyStep r.fn r.unread) ∧
      (r.processItems fuel).fn = r.fn := by
  induction fuel generalizing r with
  | zero => omega
  | succ fuel ih =>
      rw [processItems, if_pos hr, processItem_eq h, ReadState.replyStep,
        untilFinished_eq (ReadState.itemStep_lawful r.fn)]
      cases hs : r.itemStep r.fn r.unread with
      | fail s' => exact ⟨⟨rfl, ReadState.itemStep_fail hs⟩, rfl⟩
      | wait s' rest =>
          have hwf' := (ReadState.itemStep_lawful r.fn).wait_inv hwf hs
          obtain ⟨hlive, hunread⟩ :=
            live_after h hwf'.no_err (ReadState.itemStep_suffix (Or.inr hs))
          have hridx : s'.ridx = r.ridx := ReadState.itemStep_wait_ridx hs
          refine ⟨⟨hlive, ?_, rfl, hunread⟩, rfl⟩
          show 0 ≤ s'.ridx
          omega
      | emit u s' rest =>
          have hlt := (ReadState.itemStep_lawful r.fn).emit_lt hs
          have hwf' := (ReadState.itemStep_lawful r.fn).emit_inv hwf hs
          obtain ⟨hlive, hunread⟩ :=
            live_after h hwf'.no_err (ReadState.itemStep_suffix (Or.inl hs))
          simp only [settle]
          by_cases hdone : s'.ridx = -1
          · obtain ⟨obj, hobj⟩ := Option.ne_none_iff_exists'.mp
              (hwf'.root_set (by omega))
            have hfin : ReadState.finished s' =
                some ((obj, s'.store), ReadState.start { s' with reply := none }) := by
              simp [ReadState.finished, hdone, hobj]
            have hstop : ({ r with toReadState := s', pos := r.len - rest.length } :
                RedisReader σ).processItems fuel =
                { r with toReadState := s', pos := r.len - rest.length } := by
              cases fuel with
              | zero => rfl
              | succ fuel => exact if_neg (by show ¬(0 ≤ s'.ridx); omega)
            rw [hstop]
            simp only [hfin]
            exact ⟨⟨hlive, hdone, hobj, rfl, rfl, hunread⟩, trivial⟩
          · have hfin : ReadState.finished s' = none := if_neg hdone
            have hge := hwf'.ridx_ge
            have hnext := ih (r := { r with toReadState := s', pos := r.len - rest.length })
              hlive hwf' (by show 0 ≤ s'.ridx; omega) (by rw [hunread]; omega)
            rw [hunread] at hnext
            simp only [hfin]
            exact hnext

/-! ## The discarding of consumed bytes -/

@[simp] theorem discard_toReadState (r : RedisReader σ) :
    r.discard.toReadState = r.toReadState := by
  unfold discard
  split <;> rfl

@[simp] theorem discard_fn (r : RedisReader σ) : r.discard.fn = r.fn := by
  unfold discard
  split <;> rfl

theorem discard_live {r : RedisReader σ} (h : r.Live) :
    r.discard.Live ∧ r.discard.unread = r.unread := by
  unfold discard
  split
  · obtain ⟨b, hb, hlen⟩ := h.buf
    have hdrop : (sdsrange b r.pos (-1)).bytes = b.bytes.drop r.pos :=
      sdsrange_drop b (hlen ▸ h.pos)
    have hlive : ({ r with
        buf := some (sdsrange b r.pos (-1))
        pos := 0
        len := sdslen (sdsrange b r.pos (-1)) } : RedisReader σ).Live :=
      ⟨h.err, ⟨_, rfl, rfl⟩, Nat.zero_le _⟩
    simp only [hb, Option.getD_some]
    refine ⟨hlive, ?_⟩
    rw [hlive.unread_eq rfl, h.unread_eq hb]
    exact hdrop
  · exact ⟨h, rfl⟩

/-! ## `redisReaderGetReply` -/

/-- One call of `redisReaderGetReply` is one call of the resumable consumer. -/
theorem getReply_eq {r : RedisReader σ} (h : r.Live) (hwf : r.start.Wf)
    (hr : 0 ≤ r.start.ridx) :
    match r.start.replyStep r.fn r.unread with
    | .emit b s' rest => ∃ r' : RedisReader σ, r.getReply = (.ok, some b.1, r') ∧
        r'.store = b.2 ∧ r'.Holds (.waiting s' rest) ∧ r'.fn = r.fn
    | .wait s' rest => ∃ r' : RedisReader σ, r.getReply = (.ok, none, r') ∧
        r'.Holds (.waiting s' rest) ∧ r'.fn = r.fn
    | .fail s' => ∃ r' : RedisReader σ, r.getReply = (.err, none, r') ∧
        r'.Holds (.failed s') := by
  have herr : r.err.isSome = false := by simp [h.err]
  by_cases hlen : r.len = 0
  · -- Nothing was ever fed, or everything was consumed and discarded.
    have hnil : r.unread = [] := by
      have := h.unread_length
      exact List.length_eq_zero_iff.mp (by omega)
    have hwait : r.start.replyStep r.fn [] = .wait r.start [] := by
      rw [ReadState.replyStep, untilFinished_eq (ReadState.itemStep_lawful r.fn),
        ReadState.itemStep_nil r.fn hwf]
    rw [hnil, hwait]
    exact ⟨r, by simp [getReply, herr, hlen], ⟨h, rfl, hnil⟩, rfl⟩
  · have hlive : r.started.Live := ⟨hwf.no_err, h.buf, h.pos⟩
    obtain ⟨hstop, hfn⟩ := processItems_stopped (r := r.started) hlive hwf hr
      (Nat.lt_succ_self _)
    simp only [getReply, herr, Bool.false_eq_true, if_false, hlen]
    generalize hq : r.started.processItems (r.started.unread.length + 1) = q at hstop hfn ⊢
    change q.Stopped (r.start.replyStep r.fn r.unread) at hstop
    change q.fn = r.fn at hfn
    cases hstep : r.start.replyStep r.fn r.unread with
    | fail s' =>
        rw [hstep] at hstop
        have hqerr : q.err.isSome = true := Option.isSome_iff_ne_none.mpr hstop.2
        exact ⟨q, by simp only [hqerr, if_true], hstop⟩
    | wait s' rest =>
        rw [hstep] at hstop
        obtain ⟨hqlive, hqr, hqs, hqu⟩ := hstop
        obtain ⟨hdlive, hdu⟩ := discard_live hqlive
        have hqerr : q.err.isSome = false := by simp [hqlive.err]
        have hne : ¬(q.discard.ridx = -1) := by
          rw [discard_toReadState]
          omega
        refine ⟨q.discard, ?_, ⟨hdlive, ?_, hdu.trans hqu⟩, (discard_fn q).trans hfn⟩
        · simp only [hqerr, Bool.false_eq_true, if_false, hne]
        · rw [discard_toReadState, ← hqs]
          exact if_neg (by omega)
    | emit b s' rest =>
        rw [hstep] at hstop
        obtain ⟨hqlive, hqr, hqrep, hqst, hqs, hqu⟩ := hstop
        obtain ⟨hdlive, hdu⟩ := discard_live hqlive
        have hqerr : q.err.isSome = false := by simp [hqlive.err]
        have hd : q.discard.ridx = -1 := by rw [discard_toReadState, hqr]
        refine ⟨{ q.discard with reply := none }, ?_, ?_, ⟨?_, ?_, ?_⟩,
          (discard_fn q).trans hfn⟩
        · simp only [hqerr, Bool.false_eq_true, if_false, hd, if_true]
          rw [discard_toReadState, hqrep]
        · show q.discard.store = b.2
          rw [discard_toReadState, hqst]
        · exact ⟨hdlive.err, hdlive.buf, hdlive.pos⟩
        · show ReadState.start { q.discard.toReadState with reply := none } = s'
          rw [discard_toReadState, hqs]
        · exact hdu.trans hqu

end RedisReader

end MuxHiredis
