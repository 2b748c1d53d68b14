import MuxHiredis.Reader.Chunking

/-!
# Replies taken one at a time

A client takes a reply when it wants one, and feeds the reader when there is
none.  What it has taken so far is the beginning of what the whole stream holds.
-/

namespace MuxHiredis

open Resumable

variable {σ : Type}

namespace RedisReader

/-- A fresh reader was fed `input`, and `taken` was handed over. -/
inductive Progress (fn : RedisReplyObjectFunctions σ) (store : σ) (input : List UInt8)
    (taken : List (Obj × σ)) (r : RedisReader σ) : Prop
  | live (hlive : r.Live) (hwf : r.start.Wf) (hfn : r.fn = fn)
      (hdrain : ∀ more, drain (ReadState.replyStep fn) (create fn store).start (input ++ more) =
        (taken ++ (drain (ReadState.replyStep fn) r.start (r.unread ++ more)).1,
          (drain (ReadState.replyStep fn) r.start (r.unread ++ more)).2))
  | failed (herr : r.err ≠ none)
      (hdrain : ∀ more, ∃ s, drain (ReadState.replyStep fn) (create fn store).start
        (input ++ more) = (taken, .failed s))

variable {fn : RedisReplyObjectFunctions σ} {store : σ} {input : List UInt8}
  {taken : List (Obj × σ)} {r : RedisReader σ}

theorem progress_create (fn : RedisReplyObjectFunctions σ) (store : σ) :
    Progress fn store [] [] (create fn store) := by
  refine .live (create_live fn store) (create_start_wf fn store) rfl fun more ↦ ?_
  have hnil : (create fn store).unread = [] := rfl
  simp only [hnil, List.nil_append, Prod.mk.eta]

/-- All that the stream holds so far. -/
theorem feedChunks_singleton (fn : RedisReplyObjectFunctions σ) (store : σ)
    (input : List UInt8) :
    ((create fn store).feedChunks [input]).1 =
      (drain (ReadState.replyStep fn) (create fn store).start input).1 := by
  have hdrain := (feedChunks_drain fn store [input]).1
  rwa [List.flatten_singleton] at hdrain

theorem Progress.taken_first (h : Progress fn store input taken r) :
    taken <+: ((create fn store).feedChunks [input]).1 := by
  rw [feedChunks_singleton]
  cases h with
  | live hlive hwf hfn hdrain =>
      have hall := hdrain []
      rw [List.append_nil] at hall
      rw [hall]
      exact List.prefix_append taken _
  | failed herr hdrain =>
      obtain ⟨s, hall⟩ := hdrain []
      rw [List.append_nil] at hall
      rw [hall]

theorem Progress.feed (h : Progress fn store input taken r) (herr : r.err = none)
    (chunk : List UInt8) :
    (r.feed chunk).1 = .ok ∧ Progress fn store (input ++ chunk) taken (r.feed chunk).2 := by
  cases h with
  | failed hfailed _ => exact absurd herr hfailed
  | live hlive hwf hfn hdrain =>
      obtain ⟨hlive', hstate, hunread⟩ := feed_live hlive chunk
      have hstart : (r.feed chunk).2.start = r.start := by rw [hstate]
      constructor
      · have hsome : r.err.isSome = false := by simp [herr]
        simp only [RedisReader.feed, hsome, Bool.false_eq_true, if_false]
        split <;> rfl
      · apply Progress.live hlive' (hstart ▸ hwf) ((feed_fn r chunk).trans hfn)
        intro more
        rw [List.append_assoc, hdrain, hstart, hunread, List.append_assoc]

/-- What a call of `redisReaderGetReply` makes of it: the next reply, nothing, or
an error, and in the last two cases there is no other reply. -/
theorem Progress.getReply (h : Progress fn store input taken r) :
    (∃ obj r', r.getReply = (.ok, some obj, r') ∧ r'.err = none ∧
        Progress fn store input (taken ++ [(obj, r'.store)]) r') ∨
      ((∃ r', r.getReply = (.ok, none, r') ∧ r'.err = none ∧ Progress fn store input taken r') ∨
        ∃ r', r.getReply = (.err, none, r') ∧ r'.err ≠ none ∧
          Progress fn store input taken r') ∧
        ((create fn store).feedChunks [input]).1 = taken := by
  cases h with
  | failed herr hdrain =>
      have hsome : r.err.isSome = true := Option.isSome_iff_ne_none.mpr herr
      refine Or.inr ⟨Or.inr ⟨r, ?_, herr, .failed herr hdrain⟩, ?_⟩
      · rw [RedisReader.getReply, if_pos hsome]
      · obtain ⟨s, hall⟩ := hdrain []
        rw [List.append_nil] at hall
        rw [feedChunks_singleton, hall]
  | live hlive hwf hfn hdrain =>
      have hlaw := ReadState.replyStep_lawful fn
      have hget := getReply_eq hlive hwf (start_ridx_nonneg hwf)
      rw [hfn] at hget
      have hall := hdrain []
      rw [List.append_nil, List.append_nil, drain_eq hlaw r.start] at hall
      cases hs : r.start.replyStep fn r.unread with
      | emit b s' rest =>
          rw [hs] at hget
          obtain ⟨r', hr', hstore, ⟨hlive', hstart, hunread⟩, hfn'⟩ := hget
          refine Or.inl ⟨b.1, r', hr', hlive'.err, .live hlive' ?_ hfn' fun more ↦ ?_⟩
          · rw [hstart]
            exact hlaw.emit_inv hwf hs
          · rw [hdrain, drain_eq hlaw r.start, hlaw.append hwf, hs, hstart, hunread, hstore]
            simp only [Outcome.extend, List.append_assoc, List.singleton_append, Prod.mk.eta]
      | wait s' rest =>
          rw [hs] at hget hall
          obtain ⟨r', hr', ⟨hlive', hstart, hunread⟩, hfn'⟩ := hget
          refine Or.inr ⟨Or.inl ⟨r', hr', hlive'.err, .live hlive' ?_ hfn' fun more ↦ ?_⟩, ?_⟩
          · rw [hstart]
            exact hlaw.wait_inv hwf hs
          · rw [hdrain, drain_eq hlaw r.start, hlaw.append hwf, hs, hstart, hunread]
            simp only [Outcome.extend]
            rw [← drain_eq hlaw s']
          · rw [feedChunks_singleton, hall, List.append_nil]
      | fail s' =>
          rw [hs] at hget hall
          obtain ⟨r', hr', -, herr⟩ := hget
          refine Or.inr ⟨Or.inr ⟨r', hr', herr, .failed herr fun more ↦ ⟨s', ?_⟩⟩, ?_⟩
          · rw [hdrain, drain_eq hlaw r.start, hlaw.append hwf, hs]
            simp only [Outcome.extend, List.append_nil]
          · rw [feedChunks_singleton, hall, List.append_nil]

end RedisReader

end MuxHiredis
