import MuxHiredis.Reader.Refine

/-!
# Chunking cannot be observed

A reader that is fed a stream in chunks, and asked for replies after each chunk
until it has none left, yields what it yields on the whole stream.
-/

namespace MuxHiredis

open Resumable

variable {σ : Type}

namespace RedisReader

/-- Call `redisReaderGetReply` until it yields no reply or an error.  A reply is
recorded with the store at the moment it is handed over. -/
def replies : ℕ → RedisReader σ → List (Obj × σ) × RedisReader σ
  | 0, r => ([], r)
  | fuel + 1, r =>
      match r.getReply with
      | (.ok, some obj, r') =>
          (((obj, r'.store) :: (replies fuel r').1), (replies fuel r').2)
      | (_, _, r') => ([], r')

/-- Every reply consumes a byte, which bounds the calls. -/
def getReplies (r : RedisReader σ) : List (Obj × σ) × RedisReader σ :=
  r.replies (r.unread.length + 1)

/-- Feed the chunks one by one, taking all replies after each. -/
def feedChunks : RedisReader σ → List (List UInt8) → List (Obj × σ) × RedisReader σ
  | r, [] => ([], r)
  | r, chunk :: chunks =>
      let first := (r.feed chunk).2.getReplies
      let later := feedChunks first.2 chunks
      (first.1 ++ later.1, later.2)

/-- How a stream ends: waiting for more input, or an error and its text. -/
def outcome (r : RedisReader σ) : Option (RedisErr × String) :=
  r.err.map fun e ↦ (e, r.errstr)

theorem start_ridx_nonneg {s : ReadState σ} (h : s.start.Wf) : 0 ≤ s.start.ridx := by
  have hge := h.ridx_ge
  unfold ReadState.start at hge ⊢
  split
  · exact le_refl 0
  · rename_i hne
    rw [if_neg hne] at hge
    omega

theorem create_live (fn : RedisReplyObjectFunctions σ) (store : σ) :
    (create fn store).Live :=
  ⟨rfl, ⟨sdsempty, rfl, rfl⟩, le_refl 0⟩

theorem create_start_wf (fn : RedisReplyObjectFunctions σ) (store : σ) :
    (create fn store).start.Wf := by
  have hstart : (create fn store).start.ridx = 0 := rfl
  exact ⟨rfl, by omega, fun h ↦ (h hstart).elim, by omega⟩

@[simp] theorem feed_fn (r : RedisReader σ) (chunk : List UInt8) : (r.feed chunk).2.fn = r.fn := by
  by_cases herr : r.err.isSome = true
  · simp only [feed, if_pos herr]
  · by_cases hc : 1 ≤ chunk.length
    · simp only [feed, if_neg herr, if_pos hc]
      split <;> rfl
    · simp only [feed, if_neg herr, if_neg hc]

/-- A chunk is appended to what is unread, also when a large empty buffer was
replaced before. -/
theorem feed_live {r : RedisReader σ} (h : r.Live) (chunk : List UInt8) :
    (r.feed chunk).2.Live ∧ (r.feed chunk).2.toReadState = r.toReadState ∧
      (r.feed chunk).2.unread = r.unread ++ chunk := by
  obtain ⟨b, hb, hlen⟩ := h.buf
  have hpos := h.pos
  have hunread := h.unread_eq hb
  have herr : r.err.isSome = false := by simp [h.err]
  by_cases hc : 1 ≤ chunk.length
  · simp only [feed, herr, Bool.false_eq_true, if_false, if_pos hc, hb, Option.getD_some]
    by_cases hbig : r.len = 0 ∧ r.maxbuf ≠ 0 ∧ r.maxbuf < sdsavail b
    · simp only [if_pos hbig, Option.getD_some]
      have hlive : ({ r with
          buf := some (sdscatlen sdsempty chunk)
          pos := 0
          len := sdslen (sdscatlen sdsempty chunk) } : RedisReader σ).Live :=
        ⟨h.err, ⟨_, rfl, rfl⟩, Nat.zero_le _⟩
      refine ⟨hlive, trivial, ?_⟩
      have hnil : r.unread = [] := by
        have hul := h.unread_length
        exact List.length_eq_zero_iff.mp (by omega)
      rw [hlive.unread_eq rfl, hnil]
      simp
    · simp only [if_neg hbig, hb, Option.getD_some]
      have hlive : ({ r with
          buf := some (sdscatlen b chunk)
          len := sdslen (sdscatlen b chunk) } : RedisReader σ).Live := by
        refine ⟨h.err, ⟨_, rfl, rfl⟩, ?_⟩
        show r.pos ≤ (sdscatlen b chunk).bytes.length
        rw [sdscatlen_bytes, List.length_append]
        exact Nat.le_add_right_of_le (hpos.trans (le_of_eq hlen))
      refine ⟨hlive, trivial, ?_⟩
      rw [hlive.unread_eq rfl, hunread, sdscatlen_bytes]
      exact List.drop_append_of_le_length (hpos.trans (le_of_eq hlen))
  · have hnil : chunk = [] := List.length_eq_zero_iff.mp (by omega)
    simp only [feed, herr, Bool.false_eq_true, if_false, if_neg hc]
    exact ⟨h, trivial, by simp [hnil]⟩

/-- Taking all replies is draining the resumable consumer. -/
theorem replies_eq {fuel : ℕ} {r : RedisReader σ} (h : r.Live) (hwf : r.start.Wf)
    (hfuel : r.unread.length < fuel) :
    (r.replies fuel).1 = (drain (ReadState.replyStep r.fn) r.start r.unread).1 ∧
      (r.replies fuel).2.Holds (drain (ReadState.replyStep r.fn) r.start r.unread).2 ∧
        ((r.replies fuel).2.err = none → (r.replies fuel).2.fn = r.fn) := by
  induction fuel generalizing r with
  | zero => omega
  | succ fuel ih =>
      have hlaw := ReadState.replyStep_lawful r.fn
      have hget := getReply_eq h hwf (start_ridx_nonneg hwf)
      rw [replies, drain_eq hlaw]
      cases hs : r.start.replyStep r.fn r.unread with
      | emit b s' rest =>
          simp only [hs] at hget
          obtain ⟨r', hr', hstore, ⟨hlive, hstart, hunread⟩, hfn⟩ := hget
          have hlt := hlaw.emit_lt hs
          have hwf' := hlaw.emit_inv hwf hs
          obtain ⟨hreplies, hholds, hfn'⟩ :=
            ih hlive (hstart ▸ hwf') (by rw [hunread]; omega)
          simp only [hr']
          rw [hfn, hstart, hunread] at hreplies hholds
          refine ⟨?_, hholds, fun herr ↦ (hfn' herr).trans hfn⟩
          rw [hreplies, hstore]
      | wait s' rest =>
          simp only [hs] at hget
          obtain ⟨r', hr', hholds, hfn⟩ := hget
          simp only [hr']
          exact ⟨trivial, hholds, fun _ ↦ hfn⟩
      | fail s' =>
          simp only [hs] at hget
          obtain ⟨r', hr', hholds⟩ := hget
          simp only [hr']
          exact ⟨trivial, hholds, fun herr ↦ (hholds.2 herr).elim⟩

theorem getReplies_eq {r : RedisReader σ} (h : r.Live) (hwf : r.start.Wf) :
    r.getReplies.1 = (drain (ReadState.replyStep r.fn) r.start r.unread).1 ∧
      r.getReplies.2.Holds (drain (ReadState.replyStep r.fn) r.start r.unread).2 ∧
        (r.getReplies.2.err = none → r.getReplies.2.fn = r.fn) :=
  replies_eq h hwf (Nat.lt_succ_self _)

theorem feedChunks_failed {r : RedisReader σ} (h : r.err ≠ none) (chunks : List (List UInt8)) :
    r.feedChunks chunks = ([], r) := by
  have herr : r.err.isSome = true := Option.isSome_iff_ne_none.mpr h
  induction chunks with
  | nil => rfl
  | cons chunk chunks ih =>
      have hfeed : r.feed chunk = (.err, r) := by simp only [feed, herr, if_true]
      have hget : r.getReplies = ([], r) := by
        simp only [getReplies, replies, getReply, herr, if_true]
      simp only [feedChunks, hfeed, hget, ih, List.append_nil]

/-- Feeding a reader chunk by chunk is feeding the resumable consumer. -/
theorem feedChunks_eq {r : RedisReader σ} (h : r.Live) (hwf : r.start.Wf)
    (chunks : List (List UInt8)) :
    (r.feedChunks chunks).1 =
        (feedAll (ReadState.replyStep r.fn) (.waiting r.start r.unread) chunks).1 ∧
      (r.feedChunks chunks).2.Holds
        (feedAll (ReadState.replyStep r.fn) (.waiting r.start r.unread) chunks).2 := by
  induction chunks generalizing r with
  | nil => exact ⟨rfl, h, rfl, rfl⟩
  | cons chunk chunks ih =>
      have hlaw := ReadState.replyStep_lawful r.fn
      obtain ⟨hlive, hstate, hunread⟩ := feed_live h chunk
      have hstart : (r.feed chunk).2.start = r.start := by rw [hstate]
      obtain ⟨hrep, hholds, hfn⟩ := getReplies_eq hlive (hstart ▸ hwf)
      rw [hstart, hunread, feed_fn] at hrep hholds
      simp only [feedChunks, feedAll, Resumable.feed]
      generalize (r.feed chunk).2.getReplies = first at hrep hholds hfn ⊢
      obtain ⟨out, q⟩ := first
      generalize hd : drain (ReadState.replyStep r.fn) r.start (r.unread ++ chunk) = d
        at hrep hholds ⊢
      obtain ⟨out', e⟩ := d
      simp only at hrep hholds hfn ⊢
      subst hrep
      cases e with
      | failed s =>
          rw [feedChunks_failed hholds.2, feedAll_failed]
          exact ⟨rfl, hholds⟩
      | waiting s rest =>
          obtain ⟨hqlive, hqstart, hqunread⟩ := hholds
          obtain ⟨hs, -⟩ := drain_waiting hlaw hwf hd
          obtain ⟨hlater, hfinal⟩ := ih hqlive (hqstart ▸ hs)
          rw [hfn hqlive.err, feed_fn, hqstart, hqunread] at hlater hfinal
          exact ⟨by rw [hlater], hfinal⟩

/-- The end of a stream, read off where the resumable consumer stands. -/
theorem Holds.agree {r r' : RedisReader σ} {e : Final (ReadState σ) UInt8}
    (h : r.Holds e) (h' : r'.Holds e) :
    r.outcome = r'.outcome ∧ r.start.store = r'.start.store := by
  cases e with
  | waiting s rest =>
      obtain ⟨hlive, hstart, -⟩ := h
      obtain ⟨hlive', hstart', -⟩ := h'
      exact ⟨by simp [outcome, hlive.err, hlive'.err], by rw [hstart, hstart']⟩
  | failed s =>
      obtain ⟨hstate, -⟩ := h
      obtain ⟨hstate', -⟩ := h'
      have heq : r.toReadState = r'.toReadState := hstate.trans hstate'.symm
      exact ⟨by simp [outcome, heq], by rw [heq]⟩

theorem start_store (s : ReadState σ) : s.start.store = s.store := by
  unfold ReadState.start
  split <;> rfl

/-- Feeding a fresh reader in chunks is draining the consumer of the whole
stream. -/
theorem feedChunks_drain (fn : RedisReplyObjectFunctions σ) (store : σ)
    (chunks : List (List UInt8)) :
    ((create fn store).feedChunks chunks).1 =
        (drain (ReadState.replyStep fn) (create fn store).start chunks.flatten).1 ∧
      ((create fn store).feedChunks chunks).2.Holds
        (drain (ReadState.replyStep fn) (create fn store).start chunks.flatten).2 := by
  have hlaw := ReadState.replyStep_lawful fn
  have hwf := create_start_wf fn store
  have hnil : (create fn store).unread = [] := rfl
  have hidle : (create fn store).start.replyStep fn (create fn store).unread =
      .wait (create fn store).start (create fn store).unread := by
    rw [hnil, ReadState.replyStep, untilFinished_eq (ReadState.itemStep_lawful fn),
      ReadState.itemStep_nil fn hwf]
  have hall := feedChunks_eq (create_live fn store) hwf chunks
  have hfn : (create fn store).fn = fn := rfl
  rw [hfn, feedAll_eq hlaw hwf hidle, hnil] at hall
  exact hall

/-- For every stream and every way of cutting it into chunks, the replies, the
objects they are made of and the final outcome are those of feeding the whole
stream at once. -/
theorem feedChunks_chunking (fn : RedisReplyObjectFunctions σ) (store : σ)
    (chunks : List (List UInt8)) :
    ((create fn store).feedChunks chunks).1 =
        ((create fn store).feedChunks [chunks.flatten]).1 ∧
      ((create fn store).feedChunks chunks).2.outcome =
        ((create fn store).feedChunks [chunks.flatten]).2.outcome ∧
      ((create fn store).feedChunks chunks).2.store =
        ((create fn store).feedChunks [chunks.flatten]).2.store := by
  obtain ⟨hcut, hcutEnd⟩ := feedChunks_drain fn store chunks
  obtain ⟨hall, hallEnd⟩ := feedChunks_drain fn store [chunks.flatten]
  have hsame : [chunks.flatten].flatten = chunks.flatten := by simp
  rw [hsame] at hall hallEnd
  obtain ⟨hout, hstore⟩ := hcutEnd.agree hallEnd
  exact ⟨hcut.trans hall.symm, hout, by simpa only [start_store] using hstore⟩

end RedisReader

end MuxHiredis
