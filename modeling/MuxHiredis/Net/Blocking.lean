import MuxHiredis.Net.Output
import MuxHiredis.Reader.Progress
import MuxHiredis.Reader.RoundTrip

/-!
# The blocking calls

`redisBufferRead`, `redisGetReply`, `redisAppendCommand` and `redisCommand` with
their variants.  A client is a context together with the results that its
`write()` and `read()` calls will have; when there are none left, the call that
asks for one is still in the system call.
-/

namespace MuxHiredis

namespace Blocking

open Output (WriteResult redisBufferWrite)
open Format (VaArg Result)

variable {σ : Type}

/-- `errno` after a failed system call. -/
inductive Errno where
  | eagain | eintr | other
  deriving DecidableEq, Repr

/-- The result of `read()`; no bytes are the end of the stream. -/
inductive ReadResult where
  | received (buf : List UInt8)
  | failed (errno : Errno)
  deriving DecidableEq, Repr

def errnoOf : WriteResult → Errno
  | .eagain => .eagain
  | .eintr => .eintr
  | _ => .other

/-- The part of `redisContext` that commands and replies go through. -/
structure Context (σ : Type) extends Output.Context where
  errstr : String
  reader : RedisReader σ

/-- `__redisSetError` with a description; `errstr` has 128 bytes. -/
def Context.setError (c : Context σ) (type : Option RedisErr) (str : String) : Context σ :=
  { c with err := type, errstr := String.ofList (str.toList.take 127) }

/-- A client, what went through its socket, the commands that were appended, and
the replies that were handed over. -/
structure Client (σ : Type) where
  c : Context σ
  writes : List WriteResult
  reads : List ReadResult
  sent : List UInt8
  received : List UInt8
  appended : List (List UInt8)
  replies : List (Obj × σ)

/-- How a call ends, or where it waits. -/
inductive Exit where
  | returned (status : Status) (reply : Option Obj)
  | writing
  | reading
  deriving DecidableEq, Repr

/-- A socket with room for `n` bytes takes no more than it is given. -/
def upTo (len : ℕ) : WriteResult → WriteResult
  | .written n => .written (min n len)
  | w => w

namespace Client

section Calls

variable (strerror : Errno → String)

/-- `redisBufferWrite`: what it returns, and `*done`. -/
def bufferWrite (s : Client σ) : Option (Status × Bool × Client σ) :=
  let call (w : WriteResult) (writes : List WriteResult) : Status × Bool × Client σ :=
    let r := redisBufferWrite w s.c.toContext
    let errstr := if s.c.err = none ∧ r.c.err ≠ none then strerror (errnoOf w) else s.c.errstr
    (r.status, r.done.getD false, { s with
      c := { s.c with toContext := r.c, errstr := errstr }
      writes := writes
      sent := s.sent ++ w.took r.call })
  if s.c.err = none ∧ 0 < sdslen s.c.obuf then
    match s.writes with
    | [] => none
    | w :: writes => some (call (upTo (sdslen s.c.obuf) w) writes)
  else
    -- `write()` is not called, and its result does not matter.
    some (call .eintr s.writes)

def bufferRead (s : Client σ) : Option (Status × Client σ) :=
  -- Return early when the context has seen an error.
  if s.c.err ≠ none then some (.err, s)
  else
    match s.reads with
    | [] => none
    | .failed errno :: reads =>
        let s := { s with reads := reads }
        -- Try again later.
        if errno = .eagain ∧ s.c.block = false ∨ errno = .eintr then some (.ok, s)
        else some (.err, { s with c := s.c.setError (some .io) (strerror errno) })
    | .received [] :: reads =>
        some (.err, { s with
          c := s.c.setError (some .eof) "Server closed the connection"
          reads := reads })
    | .received (b :: rest) :: reads =>
        let s := { s with reads := reads, received := s.received ++ b :: rest }
        match s.c.reader.feed (b :: rest) with
        | (.ok, reader) => some (.ok, { s with c := { s.c with reader := reader } })
        | (.err, reader) =>
            some (.err, { s with
              c := { s.c with reader := reader }.setError reader.err reader.errstr })

/-- `redisGetReplyFromReader`. -/
def getReplyFromReader (s : Client σ) : Status × Option Obj × Client σ :=
  match s.c.reader.getReply with
  | (.err, _, reader) =>
      (.err, none, { s with c := { s.c with reader := reader }.setError reader.err reader.errstr })
  | (.ok, none, reader) => (.ok, none, { s with c := { s.c with reader := reader } })
  | (.ok, some obj, reader) =>
      (.ok, some obj, { s with
        c := { s.c with reader := reader }
        replies := s.replies ++ [(obj, reader.store)] })

/-- `do { if (redisBufferWrite(c,&wdone) == REDIS_ERR) … } while (!wdone);`.  The
results of `write()` bound the rounds. -/
def writeUntilDone : ℕ → Client σ → Option Exit × Client σ
  | 0, s => (some .writing, s)
  | fuel + 1, s =>
      match s.bufferWrite strerror with
      | none => (some .writing, s)
      | some (.err, _, s) => (some (.returned .err none), s)
      | some (.ok, true, s) => (none, s)
      | some (.ok, false, s) => writeUntilDone fuel s

/-- `do { … } while (aux == NULL);`, bounded by the results of `read()`. -/
def readUntilReply : ℕ → Client σ → Exit × Client σ
  | 0, s => (.reading, s)
  | fuel + 1, s =>
      match s.bufferRead strerror with
      | none => (.reading, s)
      | some (.err, s) => (.returned .err none, s)
      | some (.ok, s) =>
          match s.getReplyFromReader with
          | (.err, _, s) => (.returned .err none, s)
          | (.ok, some obj, s) => (.returned .ok (some obj), s)
          | (.ok, none, s) => readUntilReply fuel s

def redisGetReply (s : Client σ) : Exit × Client σ :=
  match s.getReplyFromReader with
  | (.err, _, s) => (.returned .err none, s)
  | (.ok, some obj, s) => (.returned .ok (some obj), s)
  | (.ok, none, s) =>
      -- For the blocking context, flush output buffer and read reply.
      if s.c.block then
        match s.writeUntilDone strerror (s.writes.length + 1) with
        | (some exit, s) => (exit, s)
        | (none, s) => s.readUntilReply strerror (s.reads.length + 1)
      else (.returned .ok none, s)

end Calls

/-! ## Commands -/

/-- `__redisAppendCommand`. -/
def append (s : Client σ) (cmd : List UInt8) : Client σ :=
  { s with
    c := { s.c with toContext := Output.appendCommand s.c.toContext cmd }
    appended := s.appended ++ [cmd] }

end Client

/-- What a command is made from. -/
inductive Command where
  | format (format : List UInt8) (ap : List VaArg)
  | argv (argv : List (List UInt8)) (argvlen : Option (List ℕ))

/-- The allocations of the formatting functions are granted or not. -/
structure Formatting where
  oom : Bool
  vsnprintf : List UInt8 → List VaArg → List UInt8

def Formatting.format (env : Formatting) : Command → Result
  | .format format ap =>
      if env.oom then .err (-1)
      else Format.redisvFormatCommand (fun _ ↦ true) env.vsnprintf format ap
  | .argv argv argvlen =>
      if env.oom then .err (-1) else Format.redisFormatSdsCommandArgv argv argvlen

namespace Client

/-- `redisvAppendCommand` and `redisAppendCommandArgv`, once the command is
formatted; there is no result when the formatting goes wrong. -/
def appendResult (s : Client σ) : Result → Option (Status × Client σ)
  | .cmd len bytes => if len < 0 then none else some (.ok, s.append (bytes.take len.toNat))
  | .err code =>
      if code = -1 then some (.err, { s with c := s.c.setError (some .oom) "Out of memory" })
      else if code = -2 then
        some (.err, { s with c := s.c.setError (some .other) "Invalid format string" })
      else none
  | .fault _ => none

/-- `__redisBlockForReply`. -/
def blockForReply (strerror : Errno → String) (s : Client σ) : Exit × Client σ :=
  if s.c.block then s.redisGetReply strerror else (.returned .ok none, s)

end Client

/-- A call on a context. -/
inductive Call where
  | append (cmd : Command)
  | getReply
  | command (cmd : Command)

namespace Client

/-- `redisAppendCommand`, `redisGetReply` or `redisCommand`, or a variant. -/
def call (strerror : Errno → String) (env : Formatting) (s : Client σ) :
    Call → Option (Exit × Client σ)
  | .append cmd => (s.appendResult (env.format cmd)).map fun p ↦ (.returned p.1 none, p.2)
  | .getReply => some (s.redisGetReply strerror)
  | .command cmd =>
      (s.appendResult (env.format cmd)).map fun p ↦
        match p.1 with
        | .err => (.returned .err none, p.2)
        | .ok => p.2.blockForReply strerror

end Client

def Exit.finished : Exit → Bool
  | .returned _ _ => true
  | .writing | .reading => false

/-- A context right after it was connected. -/
def Client.connected (fn : RedisReplyObjectFunctions σ) (store : σ) (block : Bool)
    (writes : List WriteResult) (reads : List ReadResult) : Client σ where
  c := { err := none, block := block, obuf := sdsempty, errstr := "", reader := .create fn store }
  writes := writes
  reads := reads
  sent := []
  received := []
  appended := []
  replies := []

/-- The calls that return, one after the other. -/
def client (strerror : Errno → String) (env : Formatting) (fn : RedisReplyObjectFunctions σ)
    (store : σ) : Machine (Client σ) Call where
  start s := ∃ block writes reads, s = .connected fn store block writes reads
  step s a := ((s.call strerror env a).filter fun p ↦ p.1.finished).map Prod.snd

/-- The number of bytes that a call appends. -/
def Call.size (env : Formatting) : Call → ℕ
  | .getReply => 0
  | .append cmd | .command cmd =>
      match env.format cmd with
      | .cmd len _ => len.toNat
      | _ => 0

/-- The unsent data stay below `2 ^ 31` bytes. -/
def Small (env : Formatting) (s : Client σ) (a : Call) : Prop :=
  sdslen s.c.obuf + a.size env < 2 ^ 31

instance (env : Formatting) (s : Client σ) (a : Call) : Decidable (Small env s a) :=
  inferInstanceAs (Decidable (_ < _))

/-! ## One call -/

section Ordered

variable {fn : RedisReplyObjectFunctions σ} {store : σ} {strerror : Errno → String}
  {s s' : Client σ}

/-- Nothing is lost on the way out, and what was handed over are the first replies
of what came in. -/
structure Ordered (fn : RedisReplyObjectFunctions σ) (store : σ) (s : Client σ) : Prop where
  stream : s.sent ++ s.c.obuf.bytes = s.appended.flatten
  small : sdslen s.c.obuf < 2 ^ 31
  progress : RedisReader.Progress fn store s.received s.replies s.c.reader
  reader_err : s.c.err = none → s.c.reader.err = none

/-- What holds between a client and the same client later in a call. -/
structure Within (s s' : Client σ) : Prop where
  appended : s'.appended = s.appended
  block : s'.c.block = s.c.block

theorem Within.refl (s : Client σ) : Within s s := ⟨rfl, rfl⟩

theorem Within.trans {s₁ s₂ s₃ : Client σ} (h : Within s₁ s₂) (h' : Within s₂ s₃) :
    Within s₁ s₃ :=
  ⟨h'.appended.trans h.appended, h'.block.trans h.block⟩

/-- Everything complete that came in was handed over. -/
def Caught (fn : RedisReplyObjectFunctions σ) (store : σ) (s : Client σ) : Prop :=
  ((RedisReader.create fn store).feedChunks [s.received]).1 = s.replies

theorem redisBufferWrite_block (w : WriteResult) (c : Output.Context) :
    (redisBufferWrite w c).c.block = c.block := by
  cases w with
  | written n =>
      simp only [redisBufferWrite]
      generalize wrap32 (sdslen c.obuf) = len
      generalize wrap32 n = nwritten
      split_ifs <;> rfl
  | _ =>
      simp only [redisBufferWrite]
      split_ifs <;> rfl

theorem fits_upTo (w : WriteResult) (c : Output.Context) : (upTo (sdslen c.obuf) w).Fits c := by
  cases w with
  | written n => exact Nat.min_le_right n _
  | _ => trivial

/-- `redisBufferWrite` writes the beginning of the buffer, or it fails. -/
theorem bufferWrite_cases (hsmall : sdslen s.c.obuf < 2 ^ 31) {status : Status} {done : Bool}
    (h : s.bufferWrite strerror = some (status, done, s')) :
    ∃ took c' writes, s' = { s with c := c', writes := writes, sent := s.sent ++ took } ∧
      c'.reader = s.c.reader ∧ c'.block = s.c.block ∧
      took ++ c'.obuf.bytes = s.c.obuf.bytes ∧
      (status = .ok ∧ c'.err = none ∧ s.c.err = none ∧ done = decide (c'.obuf.bytes = []) ∨
        status = .err ∧ c'.err ≠ none) := by
  have hcall : ∀ w writes, w.Fits s.c.toContext →
      some ((redisBufferWrite w s.c.toContext).status,
        (redisBufferWrite w s.c.toContext).done.getD false,
        { s with
          c := { s.c with
            toContext := (redisBufferWrite w s.c.toContext).c
            errstr :=
              if s.c.err = none ∧ (redisBufferWrite w s.c.toContext).c.err ≠ none then
                strerror (errnoOf w)
              else s.c.errstr }
          writes := writes
          sent := s.sent ++ w.took (redisBufferWrite w s.c.toContext).call }) =
        some (status, done, s') →
      ∃ took c' writes, s' = { s with c := c', writes := writes, sent := s.sent ++ took } ∧
        c'.reader = s.c.reader ∧ c'.block = s.c.block ∧
        took ++ c'.obuf.bytes = s.c.obuf.bytes ∧
        (status = .ok ∧ c'.err = none ∧ s.c.err = none ∧ done = decide (c'.obuf.bytes = []) ∨
          status = .err ∧ c'.err ≠ none) := by
    intro w writes hfits heq
    obtain ⟨rfl, hrest⟩ := Prod.mk.inj (Option.some.inj heq)
    obtain ⟨rfl, rfl⟩ := Prod.mk.inj hrest
    refine ⟨_, _, writes, rfl, rfl, redisBufferWrite_block w _, ?_⟩
    rcases Output.redisBufferWrite_cases w s.c.toContext hfits hsmall with
      ⟨hok, herr, herr', hbytes, hdone, -⟩ | ⟨hfail, herr, hobuf, htook, -⟩
    · refine ⟨hbytes, Or.inl ⟨hok, herr', herr, ?_⟩⟩
      rw [hdone]
      rfl
    · refine ⟨?_, Or.inr ⟨hfail, herr⟩⟩
      rw [htook]
      exact congrArg Sds.bytes hobuf
  unfold Client.bufferWrite at h
  dsimp only at h
  split at h
  · split at h
    · cases h
    · exact hcall _ _ (fits_upTo _ _) h
  · exact hcall .eintr _ trivial h

theorem Ordered.bufferWrite (h : Ordered fn store s) {status : Status} {done : Bool}
    (hwrite : s.bufferWrite strerror = some (status, done, s')) :
    Ordered fn store s' ∧ Within s s' ∧ s'.replies = s.replies ∧ s'.received = s.received ∧
      (status = .ok ∧ s'.c.err = none ∧ done = decide (s'.c.obuf.bytes = []) ∨
        status = .err ∧ s'.c.err ≠ none) := by
  obtain ⟨took, c', writes, rfl, hreader, hblock, hbytes, hstatus⟩ :=
    bufferWrite_cases h.small hwrite
  refine ⟨⟨?_, ?_, ?_, ?_⟩, ⟨rfl, hblock⟩, rfl, rfl, ?_⟩
  · change s.sent ++ took ++ c'.obuf.bytes = s.appended.flatten
    rw [List.append_assoc, hbytes]
    exact h.stream
  · have hsmall : s.c.obuf.bytes.length < 2 ^ 31 := h.small
    change c'.obuf.bytes.length < 2 ^ 31
    rw [← hbytes, List.length_append] at hsmall
    omega
  · change RedisReader.Progress fn store s.received s.replies c'.reader
    rw [hreader]
    exact h.progress
  · intro herr
    change c'.reader.err = none
    rw [hreader]
    rcases hstatus with ⟨-, -, hnone, -⟩ | ⟨-, hsome⟩
    · exact h.reader_err hnone
    · exact absurd herr hsome
  · rcases hstatus with ⟨hok, herr, -, hdone⟩ | hfail
    · exact Or.inl ⟨hok, herr, hdone⟩
    · exact Or.inr hfail

theorem bufferWrite_none (h : s.bufferWrite strerror = none) :
    s.c.err = none ∧ s.c.obuf.bytes ≠ [] ∧ s.writes = [] := by
  unfold Client.bufferWrite at h
  dsimp only at h
  split at h
  · rename_i hcalls
    split at h
    · rename_i hwrites
      exact ⟨hcalls.1, List.ne_nil_of_length_pos hcalls.2, hwrites⟩
    · cases h
  · cases h

theorem bufferWrite_again (h : s.bufferWrite strerror = some (.ok, false, s')) :
    s'.writes.length < s.writes.length := by
  unfold Client.bufferWrite at h
  dsimp only at h
  split at h
  · split at h
    · cases h
    · rename_i w writes hwrites
      obtain ⟨-, hrest⟩ := Prod.mk.inj (Option.some.inj h)
      obtain ⟨-, rfl⟩ := Prod.mk.inj hrest
      rw [hwrites]
      exact Nat.lt_succ_self _
  · rename_i hcalls
    obtain ⟨hstatus, hrest⟩ := Prod.mk.inj (Option.some.inj h)
    obtain ⟨hdone, -⟩ := Prod.mk.inj hrest
    by_cases herr : s.c.err = none
    · have hlen : sdslen s.c.obuf = 0 := by
        by_contra hne
        exact hcalls ⟨herr, Nat.pos_of_ne_zero hne⟩
      rw [redisBufferWrite, if_neg (not_not_intro herr), if_neg (by omega)] at hdone
      simp [Output.finish, hlen] at hdone
    · rw [redisBufferWrite, if_pos herr] at hstatus
      cases hstatus

/-- `redisBufferRead` feeds the reader, or it fails. -/
theorem Ordered.bufferRead (h : Ordered fn store s) {status : Status}
    (hread : s.bufferRead strerror = some (status, s')) :
    Ordered fn store s' ∧ Within s s' ∧ s'.replies = s.replies ∧ s'.sent = s.sent ∧
      s'.c.obuf = s.c.obuf ∧
      (status = .ok ∧ s'.c.err = none ∧ s'.reads.length < s.reads.length ∨
        status = .err ∧ s'.c.err ≠ none ∧ s'.received = s.received) := by
  have hkeep : ∀ {c' : Context σ} {reads : List ReadResult}, c'.reader = s.c.reader →
      c'.obuf = s.c.obuf → (c'.err = none → s.c.err = none) →
      Ordered fn store { s with c := c', reads := reads } := by
    intro c' reads hreader hobuf herr
    refine ⟨?_, ?_, ?_, fun hnone ↦ ?_⟩
    · exact hobuf ▸ h.stream
    · exact hobuf ▸ h.small
    · exact hreader ▸ h.progress
    · exact hreader ▸ h.reader_err (herr hnone)
  unfold Client.bufferRead at hread
  by_cases herr : s.c.err = none
  · rw [if_neg (not_not_intro herr)] at hread
    split at hread
    · cases hread
    · rename_i errno reads hreads
      have hlt : reads.length < s.reads.length := by
        rw [hreads]
        exact Nat.lt_succ_self _
      dsimp only at hread
      split at hread
      · obtain ⟨rfl, rfl⟩ := Prod.mk.inj (Option.some.inj hread)
        exact ⟨hkeep rfl rfl id, ⟨rfl, rfl⟩, rfl, rfl, rfl, Or.inl ⟨rfl, herr, hlt⟩⟩
      · obtain ⟨rfl, rfl⟩ := Prod.mk.inj (Option.some.inj hread)
        refine ⟨hkeep rfl rfl fun _ ↦ herr, ⟨rfl, rfl⟩, rfl, rfl, rfl, Or.inr ⟨rfl, ?_, rfl⟩⟩
        simp [Context.setError]
    · obtain ⟨rfl, rfl⟩ := Prod.mk.inj (Option.some.inj hread)
      refine ⟨hkeep rfl rfl fun _ ↦ herr, ⟨rfl, rfl⟩, rfl, rfl, rfl, Or.inr ⟨rfl, ?_, rfl⟩⟩
      simp [Context.setError]
    · rename_i b rest reads hreads
      obtain ⟨hok, hprogress⟩ := h.progress.feed (h.reader_err herr) (b :: rest)
      have hreader : (s.c.reader.feed (b :: rest)).2.err = none := by
        rw [RedisReader.feed] at hok ⊢
        split at hok
        · cases hok
        · rename_i hsome
          have hnone : s.c.reader.err = none := h.reader_err herr
          rw [if_neg hsome]
          split
          · dsimp only
            split <;> exact hnone
          · exact hnone
      dsimp only at hread
      split at hread
      · rename_i reader hfeed
        obtain ⟨rfl, rfl⟩ := Prod.mk.inj (Option.some.inj hread)
        rw [hfeed] at hprogress hreader
        refine ⟨⟨h.stream, h.small, hprogress, fun _ ↦ hreader⟩, ⟨rfl, rfl⟩, rfl, rfl, rfl,
          Or.inl ⟨rfl, herr, ?_⟩⟩
        rw [hreads]
        exact Nat.lt_succ_self _
      · rename_i reader hfeed
        rw [hfeed] at hok
        cases hok
  · rw [if_pos herr] at hread
    obtain ⟨rfl, rfl⟩ := Prod.mk.inj (Option.some.inj hread)
    exact ⟨h, .refl _, rfl, rfl, rfl, Or.inr ⟨rfl, herr, rfl⟩⟩

theorem bufferRead_none (h : s.bufferRead strerror = none) : s.c.err = none ∧ s.reads = [] := by
  unfold Client.bufferRead at h
  split at h
  · cases h
  · rename_i herr
    refine ⟨not_not.mp herr, ?_⟩
    split at h
    · assumption
    · dsimp only at h
      split at h <;> cases h
    · cases h
    · dsimp only at h
      split at h <;> cases h

/-- What `redisGetReplyFromReader` makes of a client. -/
inductive Taken (fn : RedisReplyObjectFunctions σ) (store : σ) (s : Client σ) :
    Status × Option Obj × Client σ → Prop
  | reply {obj : Obj} {s' : Client σ} (hreplies : s'.replies = s.replies ++
      [(obj, s'.c.reader.store)]) (herr : s'.c.err = s.c.err) : Taken fn store s (.ok, some obj, s')
  | nothing {s' : Client σ} (hreplies : s'.replies = s.replies) (hcaught : Caught fn store s')
      (herr : s'.c.err = s.c.err) : Taken fn store s (.ok, none, s')
  | error {s' : Client σ} (hreplies : s'.replies = s.replies) (hcaught : Caught fn store s')
      (herr : s'.c.err ≠ none) : Taken fn store s (.err, none, s')

/-- What it leaves alone. -/
structure Quiet (s s' : Client σ) : Prop extends Within s s' where
  sent : s'.sent = s.sent
  received : s'.received = s.received
  writes : s'.writes = s.writes
  reads : s'.reads = s.reads
  obuf : s'.c.obuf = s.c.obuf

theorem Ordered.getReplyFromReader (h : Ordered fn store s) :
    Ordered fn store s.getReplyFromReader.2.2 ∧ Quiet s s.getReplyFromReader.2.2 ∧
      Taken fn store s s.getReplyFromReader := by
  unfold Client.getReplyFromReader
  rcases h.progress.getReply with ⟨obj, reader, hget, herr, hprogress⟩ |
    ⟨⟨reader, hget, herr, hprogress⟩ | ⟨reader, hget, herr, hprogress⟩, hall⟩
  · rw [hget]
    exact ⟨⟨h.stream, h.small, hprogress, fun _ ↦ herr⟩, ⟨⟨rfl, rfl⟩, rfl, rfl, rfl, rfl, rfl⟩,
      .reply rfl rfl⟩
  · rw [hget]
    exact ⟨⟨h.stream, h.small, hprogress, fun _ ↦ herr⟩, ⟨⟨rfl, rfl⟩, rfl, rfl, rfl, rfl, rfl⟩,
      .nothing rfl hall rfl⟩
  · rw [hget]
    exact ⟨⟨h.stream, h.small, hprogress, fun hnone ↦ absurd hnone herr⟩,
      ⟨⟨rfl, rfl⟩, rfl, rfl, rfl, rfl, rfl⟩, .error rfl hall herr⟩

/-- What a call of `redisGetReply` comes to. -/
inductive Outcome (fn : RedisReplyObjectFunctions σ) (store : σ) (s : Client σ) :
    Exit × Client σ → Prop
  | reply {obj : Obj} {s' : Client σ} (hreplies : s'.replies = s.replies ++
      [(obj, s'.c.reader.store)]) (herr : s'.c.err = none ∨ s'.c.err = s.c.err) :
      Outcome fn store s (.returned .ok (some obj), s')
  | nothing {s' : Client σ} (hblock : s'.c.block = false) (hreplies : s'.replies = s.replies)
      (hcaught : Caught fn store s') : Outcome fn store s (.returned .ok none, s')
  | error {s' : Client σ} (herr : s'.c.err ≠ none) (hreplies : s'.replies = s.replies)
      (hcaught : Caught fn store s') : Outcome fn store s (.returned .err none, s')
  | writing {s' : Client σ} (herr : s'.c.err = none) (hobuf : s'.c.obuf.bytes ≠ [])
      (hwrites : s'.writes = []) (hreplies : s'.replies = s.replies)
      (hcaught : Caught fn store s') : Outcome fn store s (.writing, s')
  | reading {s' : Client σ} (herr : s'.c.err = none) (hobuf : s'.c.obuf.bytes = [])
      (hreads : s'.reads = []) (hreplies : s'.replies = s.replies)
      (hcaught : Caught fn store s') : Outcome fn store s (.reading, s')

theorem Outcome.congr {s₁ : Client σ} {p : Exit × Client σ} (h : Outcome fn store s₁ p)
    (hreplies : s₁.replies = s.replies) (hnone : s₁.c.err = none) : Outcome fn store s p := by
  cases h with
  | reply h herr =>
      exact .reply (hreplies ▸ h) (Or.inl (herr.elim id fun hsame ↦ hsame.trans hnone))
  | nothing hblock h hcaught => exact .nothing hblock (hreplies ▸ h) hcaught
  | error herr h hcaught => exact .error herr (hreplies ▸ h) hcaught
  | writing herr hobuf hwrites h hcaught => exact .writing herr hobuf hwrites (hreplies ▸ h) hcaught
  | reading herr hobuf hreads h hcaught => exact .reading herr hobuf hreads (hreplies ▸ h) hcaught

variable (strerror) in
/-- The output buffer is written until it is empty, or until writing fails or
waits. -/
theorem Ordered.writeUntilDone (h : Ordered fn store s) {fuel : ℕ}
    (hfuel : s.writes.length < fuel) :
    ∃ exit s', s.writeUntilDone strerror fuel = (exit, s') ∧ Ordered fn store s' ∧
      Within s s' ∧ s'.replies = s.replies ∧ s'.received = s.received ∧
      (exit = none ∧ s'.c.err = none ∧ s'.c.obuf.bytes = [] ∨
        exit = some (.returned .err none) ∧ s'.c.err ≠ none ∨
        exit = some .writing ∧ s'.c.err = none ∧ s'.c.obuf.bytes ≠ [] ∧ s'.writes = []) := by
  induction fuel generalizing s with
  | zero => omega
  | succ fuel ih =>
      rw [Client.writeUntilDone]
      cases hwrite : s.bufferWrite strerror with
      | none =>
          exact ⟨_, s, rfl, h, .refl s, rfl, rfl,
            Or.inr (Or.inr ⟨rfl, bufferWrite_none hwrite⟩)⟩
      | some p =>
          obtain ⟨status, done, s₁⟩ := p
          obtain ⟨h₁, hwithin, hreplies, hreceived, hend⟩ := h.bufferWrite hwrite
          rcases hend with ⟨rfl, herr, hdone⟩ | ⟨rfl, herr⟩
          · cases done with
            | true => exact ⟨_, s₁, rfl, h₁, hwithin, hreplies, hreceived,
                Or.inl ⟨rfl, herr, of_decide_eq_true hdone.symm⟩⟩
            | false =>
                have hless := bufferWrite_again hwrite
                obtain ⟨exit, s', hrun, h', hwithin', hreplies', hreceived', hend'⟩ :=
                  ih h₁ (by omega)
                exact ⟨exit, s', hrun, h', hwithin.trans hwithin', hreplies'.trans hreplies,
                  hreceived'.trans hreceived, hend'⟩
          · exact ⟨_, s₁, rfl, h₁, hwithin, hreplies, hreceived, Or.inr (Or.inl ⟨rfl, herr⟩)⟩

variable (strerror) in
theorem Ordered.readUntilReply (h : Ordered fn store s) (hcaught : Caught fn store s)
    (hobuf : s.c.obuf.bytes = []) {fuel : ℕ} (hfuel : s.reads.length < fuel) :
    Ordered fn store (s.readUntilReply strerror fuel).2 ∧
      Within s (s.readUntilReply strerror fuel).2 ∧
      Outcome fn store s (s.readUntilReply strerror fuel) := by
  induction fuel generalizing s with
  | zero => omega
  | succ fuel ih =>
      rw [Client.readUntilReply]
      cases hread : s.bufferRead strerror with
      | none =>
          obtain ⟨herr, hreads⟩ := bufferRead_none hread
          exact ⟨h, .refl s, .reading herr hobuf hreads rfl hcaught⟩
      | some p =>
          obtain ⟨status, s₁⟩ := p
          obtain ⟨h₁, hwithin, hreplies, -, hsame, hend⟩ := h.bufferRead hread
          rcases hend with ⟨rfl, herr, hless⟩ | ⟨rfl, herr, hreceived⟩
          · obtain ⟨h₂, hquiet, htaken⟩ := h₁.getReplyFromReader
            have hwithin₂ := hwithin.trans hquiet.toWithin
            dsimp only
            rcases hget : s₁.getReplyFromReader with ⟨status, reply, s₂⟩
            rw [hget] at h₂ hquiet htaken hwithin₂
            cases htaken with
            | reply hnew hsame₂ =>
                exact ⟨h₂, hwithin₂, .reply (hreplies ▸ hnew) (Or.inl (hsame₂.trans herr))⟩
            | error hsame₂ hcaught₂ herr₂ =>
                exact ⟨h₂, hwithin₂, .error herr₂ (hsame₂.trans hreplies) hcaught₂⟩
            | nothing hsame₂ hcaught₂ herr₂ =>
                have hreads : s₂.reads.length < fuel := by
                  have hkeep : s₂.reads = s₁.reads := hquiet.reads
                  rw [hkeep]
                  omega
                have hobuf₂ : s₂.c.obuf.bytes = [] := by
                  have hkeep : s₂.c.obuf = s₁.c.obuf := hquiet.obuf
                  rw [hkeep, hsame, hobuf]
                obtain ⟨h', hwithin', houtcome⟩ := ih h₂ hcaught₂ hobuf₂ hreads
                exact ⟨h', hwithin₂.trans hwithin', houtcome.congr (hsame₂.trans hreplies)
                  (herr₂.trans herr)⟩
          · refine ⟨h₁, hwithin, .error herr hreplies ?_⟩
            rw [Caught, hreceived, hreplies]
            exact hcaught

variable (strerror) in
theorem Ordered.redisGetReply (h : Ordered fn store s) :
    Ordered fn store (s.redisGetReply strerror).2 ∧ Within s (s.redisGetReply strerror).2 ∧
      Outcome fn store s (s.redisGetReply strerror) := by
  obtain ⟨h₁, hquiet, htaken⟩ := h.getReplyFromReader
  unfold Client.redisGetReply
  rcases hget : s.getReplyFromReader with ⟨status, reply, s₁⟩
  rw [hget] at h₁ hquiet htaken
  have hwithin : Within s s₁ := hquiet.toWithin
  cases htaken with
  | reply hnew hkeep => exact ⟨h₁, hwithin, .reply hnew (Or.inr hkeep)⟩
  | error hsame hcaught herr => exact ⟨h₁, hwithin, .error herr hsame hcaught⟩
  | nothing hsame hcaught herr =>
      by_cases hblock : s₁.c.block = true
      · simp only [hblock, if_true]
        obtain ⟨exit, s₂, hrun, h₂, hwithin₂, hreplies, hreceived, hend⟩ :=
          h₁.writeUntilDone strerror (Nat.lt_succ_self _)
        have hcaught₂ : Caught fn store s₂ := by
          rw [Caught, hreceived, hreplies]
          exact hcaught
        rw [hrun]
        rcases hend with ⟨rfl, hnone, hobuf⟩ | ⟨rfl, herr₂⟩ | ⟨rfl, herr₂, hobuf, hwrites⟩
        · obtain ⟨h₃, hwithin₃, houtcome⟩ :=
            h₂.readUntilReply strerror hcaught₂ hobuf (Nat.lt_succ_self _)
          exact ⟨h₃, (hwithin.trans hwithin₂).trans hwithin₃,
            houtcome.congr (hreplies.trans hsame) hnone⟩
        · exact ⟨h₂, hwithin.trans hwithin₂, .error herr₂ (hreplies.trans hsame) hcaught₂⟩
        · exact ⟨h₂, hwithin.trans hwithin₂,
            .writing herr₂ hobuf hwrites (hreplies.trans hsame) hcaught₂⟩
      · simp only [hblock, Bool.false_eq_true, if_false]
        exact ⟨h₁, hwithin, .nothing (Bool.eq_false_of_not_eq_true hblock) hsame hcaught⟩

/-! ## All calls -/

/-- What appending comes to. -/
inductive Appended (s : Client σ) (r : Result) : Status × Client σ → Prop
  | cmd {len : ℤ} {bytes : List UInt8} (hr : r = .cmd len bytes) :
      Appended s r (.ok, s.append (bytes.take len.toNat))
  | error {c' : Context σ} (herr : c'.err ≠ none) (hobuf : c'.obuf = s.c.obuf)
      (hreader : c'.reader = s.c.reader) (hblock : c'.block = s.c.block) :
      Appended s r (.err, { s with c := c' })

theorem appendResult_cases {r : Result} {p : Status × Client σ} (h : s.appendResult r = some p) :
    Appended s r p := by
  cases r with
  | cmd len bytes =>
      simp only [Client.appendResult] at h
      split at h
      · cases h
      · exact Option.some.inj h ▸ .cmd rfl
  | err code =>
      simp only [Client.appendResult] at h
      split at h
      · exact Option.some.inj h ▸ .error (by simp [Context.setError]) rfl rfl rfl
      · split at h
        · exact Option.some.inj h ▸ .error (by simp [Context.setError]) rfl rfl rfl
        · cases h
  | fault f => cases h

theorem Ordered.appended (h : Ordered fn store s) {r : Result} {p : Status × Client σ}
    (hp : Appended s r p)
    (hsmall : ∀ len bytes, r = .cmd len bytes → sdslen s.c.obuf + len.toNat < 2 ^ 31) :
    Ordered fn store p.2 := by
  cases hp with
  | @cmd len bytes hr =>
      have hroom := hsmall len bytes hr
      have hobuf : (sdscatlen s.c.obuf (bytes.take len.toNat)).bytes =
          s.c.obuf.bytes ++ bytes.take len.toNat := sdscatlen_bytes _ _
      refine ⟨?_, ?_, h.progress, h.reader_err⟩
      · change s.sent ++ (sdscatlen s.c.obuf (bytes.take len.toNat)).bytes =
          (s.appended ++ [bytes.take len.toNat]).flatten
        rw [hobuf, ← List.append_assoc, h.stream, List.flatten_append, List.flatten_singleton]
      · change (sdscatlen s.c.obuf (bytes.take len.toNat)).bytes.length < 2 ^ 31
        have htake := List.length_take_le len.toNat bytes
        rw [hobuf, List.length_append]
        rw [sdslen] at hroom
        omega
  | error herr hobuf hreader _ =>
      refine ⟨?_, ?_, ?_, fun hnone ↦ absurd hnone herr⟩
      · exact hobuf ▸ h.stream
      · exact hobuf ▸ h.small
      · exact hreader ▸ h.progress

/-- How a call goes on after its command was appended. -/
inductive Called (strerror : Errno → String) (env : Formatting) (s : Client σ) :
    Call → Exit × Client σ → Prop
  | append {cmd : Command} {p : Status × Client σ} (hp : Appended s (env.format cmd) p) :
      Called strerror env s (.append cmd) (.returned p.1 none, p.2)
  | getReply : Called strerror env s .getReply (s.redisGetReply strerror)
  | failed {cmd : Command} {s' : Client σ} (hp : Appended s (env.format cmd) (.err, s')) :
      Called strerror env s (.command cmd) (.returned .err none, s')
  | command {cmd : Command} {s' : Client σ} (hp : Appended s (env.format cmd) (.ok, s'))
      (hblock : s'.c.block = true) :
      Called strerror env s (.command cmd) (s'.redisGetReply strerror)
  | nonblocking {cmd : Command} {s' : Client σ} (hp : Appended s (env.format cmd) (.ok, s'))
      (hblock : s'.c.block = false) :
      Called strerror env s (.command cmd) (.returned .ok none, s')

theorem call_cases {env : Formatting} {a : Call} {p : Exit × Client σ}
    (h : s.call strerror env a = some p) : Called strerror env s a p := by
  cases a with
  | append cmd =>
      obtain ⟨q, hq, rfl⟩ := Option.map_eq_some_iff.mp h
      exact .append (appendResult_cases hq)
  | getReply => exact Option.some.inj h ▸ .getReply
  | command cmd =>
      obtain ⟨⟨status, s'⟩, hq, rfl⟩ := Option.map_eq_some_iff.mp h
      have hp := appendResult_cases hq
      cases status with
      | err => exact .failed hp
      | ok =>
          dsimp only [Client.blockForReply]
          by_cases hblock : s'.c.block = true
          · rw [if_pos hblock]
            exact .command hp hblock
          · rw [if_neg hblock]
            exact .nonblocking hp (Bool.eq_false_of_not_eq_true hblock)

theorem Small.room {env : Formatting} {cmd : Command}
    (h : sdslen s.c.obuf + (Call.append cmd).size env < 2 ^ 31) (len : ℤ) (bytes : List UInt8)
    (hr : env.format cmd = .cmd len bytes) : sdslen s.c.obuf + len.toNat < 2 ^ 31 := by
  simp only [Call.size, hr] at h
  exact h

theorem Ordered.call {env : Formatting} {a : Call} {p : Exit × Client σ} (h : Ordered fn store s)
    (hsmall : Small env s a) (hcall : s.call strerror env a = some p) :
    Ordered fn store p.2 := by
  cases call_cases hcall with
  | append hp => exact h.appended hp (Small.room hsmall)
  | getReply => exact (h.redisGetReply strerror).1
  | failed hp => exact h.appended hp (Small.room hsmall)
  | command hp _ =>
      have happended := h.appended hp (Small.room hsmall)
      exact (happended.redisGetReply strerror).1
  | nonblocking hp _ => exact h.appended hp (Small.room hsmall)

theorem step_call {env : Formatting} {a : Call}
    (h : (client strerror env fn store).step s a = some s') :
    ∃ status reply, s.call strerror env a = some (.returned status reply, s') := by
  obtain ⟨⟨exit, t⟩, hp, rfl⟩ := Option.map_eq_some_iff.mp h
  obtain ⟨hcall, hfinished⟩ := Option.filter_eq_some_iff.mp hp
  cases exit with
  | returned status reply => exact ⟨status, reply, hcall⟩
  | writing => cases hfinished
  | reading => cases hfinished

theorem ordered_connected (fn : RedisReplyObjectFunctions σ) (store : σ) (block : Bool)
    (writes : List WriteResult) (reads : List ReadResult) :
    Ordered fn store (.connected fn store block writes reads) where
  stream := rfl
  small := by
    change 0 < 2 ^ 31
    decide
  progress := RedisReader.progress_create fn store
  reader_err _ := rfl

theorem reach_ordered {env : Formatting}
    (hs : (client strerror env fn store).Reach (Small env) s) : Ordered fn store s := by
  apply hs.invariant
  · rintro s ⟨block, writes, reads, rfl⟩
    exact ordered_connected fn store block writes reads
  · intro s a s' h hsmall hstep
    obtain ⟨status, reply, hcall⟩ := step_call hstep
    exact h.call hsmall hcall

theorem Ordered.caught_first (h : Ordered fn store s) :
    s.replies <+: ((RedisReader.create fn store).feedChunks [s.received]).1 :=
  h.progress.taken_first

/-- The commands go out in order, and the replies are handed over in order: a
reply that is complete is returned without a system call, and a call waits to
read when the output is empty and every complete reply was handed over. -/
theorem redisGetReply_next {env : Formatting}
    (hs : (client strerror env fn store).Reach (Small env) s) :
    let stream (s : Client σ) := ((RedisReader.create fn store).feedChunks [s.received]).1
    let s' := (s.redisGetReply strerror).2
    s.sent ++ s.c.obuf.bytes = s.appended.flatten ∧ s.replies <+: stream s ∧
      s'.sent ++ s'.c.obuf.bytes = s.appended.flatten ∧ s'.replies <+: stream s' ∧
      Outcome fn store s (s.redisGetReply strerror) ∧
      (stream s ≠ s.replies →
        ∃ obj, (s.redisGetReply strerror).1 = .returned .ok (some obj) ∧ Quiet s s') := by
  have h := reach_ordered hs
  obtain ⟨h', hwithin, houtcome⟩ := h.redisGetReply strerror
  refine ⟨h.stream, h.caught_first, hwithin.appended ▸ h'.stream, h'.caught_first, houtcome,
    fun hmore ↦ ?_⟩
  obtain ⟨-, hquiet, htaken⟩ := h.getReplyFromReader
  unfold Client.redisGetReply
  rcases hget : s.getReplyFromReader with ⟨status, reply, s₁⟩
  rw [hget] at hquiet htaken
  have hreceived : s₁.received = s.received := hquiet.received
  cases htaken with
  | reply _ _ => exact ⟨_, rfl, hquiet⟩
  | nothing hsame hcaught _ =>
      rw [Caught, hreceived, hsame] at hcaught
      exact absurd hcaught hmore
  | error hsame hcaught _ =>
      rw [Caught, hreceived, hsame] at hcaught
      exact absurd hcaught hmore

def noArguments : Formatting := ⟨false, fun _ _ ↦ []⟩

def ping : Command := .format [80, 73, 78, 71] []

def pong : ReplyTree := .status [80, 79, 78, 71]

/-- The first answer comes in two parts, and the second one does not come. -/
def pingClient : Client Heap :=
  .connected defaultFunctions .empty true [.written 3, .eintr, .written 99, .written 99]
    [.received (pong.encode.take 3), .failed .eintr, .received (pong.encode.drop 3),
      .failed .other]

def pingRuns : Machine (Client Heap) Call :=
  client (fun _ ↦ "") noArguments defaultFunctions .empty

theorem pingClient_reach (guard : Client Heap → Call → Prop) : pingRuns.Reach guard pingClient :=
  .start ⟨true, _, _, rfl⟩

theorem redisGetReply_next_ping :
    ∃ s, pingRuns.run pingClient [.append ping] = some s ∧
      Outcome defaultFunctions .empty s (s.redisGetReply fun _ ↦ "") := by
  have hmeets : pingRuns.Meets (Small noArguments) pingClient [.append ping] := by decide
  have hs := (pingClient_reach _).run hmeets rfl
  exact ⟨_, rfl, (redisGetReply_next hs).2.2.2.2.1⟩

/-! ## After an error -/

/-- An error stays, and the socket is left alone. -/
structure Stuck (s s' : Client σ) : Prop where
  err : s'.c.err ≠ none
  sent : s'.sent = s.sent
  received : s'.received = s.received
  writes : s'.writes = s.writes
  reads : s'.reads = s.reads

theorem Stuck.refl (herr : s.c.err ≠ none) : Stuck s s := ⟨herr, rfl, rfl, rfl, rfl⟩

theorem Stuck.trans {s₁ s₂ s₃ : Client σ} (h : Stuck s₁ s₂) (h' : Stuck s₂ s₃) : Stuck s₁ s₃ :=
  ⟨h'.err, h'.sent.trans h.sent, h'.received.trans h.received, h'.writes.trans h.writes,
    h'.reads.trans h.reads⟩

theorem Taken.err {p : Status × Option Obj × Client σ} (h : Taken fn store s p)
    (herr : s.c.err ≠ none) : p.2.2.c.err ≠ none := by
  cases h with
  | reply _ hsame => exact hsame ▸ herr
  | nothing _ _ hsame => exact hsame ▸ herr
  | error _ _ hsome => exact hsome

/-- After an error `redisBufferWrite` returns early. -/
theorem bufferWrite_stuck (strerror : Errno → String) (herr : s.c.err ≠ none) :
    ∃ s', s.bufferWrite strerror = some (.err, false, s') ∧ Stuck s s' := by
  have hearly : redisBufferWrite .eintr s.c.toContext = ⟨.err, none, none, s.c.toContext⟩ := by
    rw [redisBufferWrite, if_pos herr]
  have hnot : ¬(s.c.err = none ∧ 0 < sdslen s.c.obuf) := fun h ↦ herr h.1
  unfold Client.bufferWrite
  simp only [if_neg hnot, hearly]
  exact ⟨_, rfl, ⟨herr, by simp only [WriteResult.took, List.append_nil], rfl, rfl, rfl⟩⟩

variable (strerror) in
theorem Ordered.redisGetReply_stuck (h : Ordered fn store s) (herr : s.c.err ≠ none) :
    ∃ status reply s', s.redisGetReply strerror = (.returned status reply, s') ∧ Stuck s s' := by
  obtain ⟨h₁, hquiet, htaken⟩ := h.getReplyFromReader
  unfold Client.redisGetReply
  rcases hget : s.getReplyFromReader with ⟨status, reply, s₁⟩
  rw [hget] at hquiet htaken
  have hstuck : Stuck s s₁ :=
    ⟨htaken.err herr, hquiet.sent, hquiet.received, hquiet.writes, hquiet.reads⟩
  cases htaken with
  | reply _ _ => exact ⟨_, _, s₁, rfl, hstuck⟩
  | error _ _ _ => exact ⟨_, _, s₁, rfl, hstuck⟩
  | nothing _ _ _ =>
      by_cases hblock : s₁.c.block = true
      · obtain ⟨s₂, hwrite, hstuck₂⟩ := bufferWrite_stuck strerror hstuck.err
        refine ⟨.err, none, s₂, ?_, hstuck.trans hstuck₂⟩
        simp only [hblock, if_true, Client.writeUntilDone, hwrite]
      · refine ⟨.ok, none, s₁, ?_, hstuck⟩
        simp only [hblock, Bool.false_eq_true, if_false]

theorem Appended.stuck {r : Result} {p : Status × Client σ} (h : Appended s r p)
    (herr : s.c.err ≠ none) : Stuck s p.2 := by
  cases h with
  | cmd _ => exact ⟨herr, rfl, rfl, rfl, rfl⟩
  | error hsome _ _ _ => exact ⟨hsome, rfl, rfl, rfl, rfl⟩

theorem Ordered.call_stuck {env : Formatting} {a : Call} {p : Exit × Client σ}
    (h : Ordered fn store s) (herr : s.c.err ≠ none) (hsmall : Small env s a)
    (hcall : s.call strerror env a = some p) : p.1.finished = true ∧ Stuck s p.2 := by
  have hget : ∀ {t : Client σ}, Ordered fn store t → Stuck s t →
      (t.redisGetReply strerror).1.finished = true ∧ Stuck s (t.redisGetReply strerror).2 := by
    intro t ht hstuck
    obtain ⟨status, reply, s', hreturns, hstuck'⟩ := ht.redisGetReply_stuck strerror hstuck.err
    rw [hreturns]
    exact ⟨rfl, hstuck.trans hstuck'⟩
  cases call_cases hcall with
  | append hp => exact ⟨rfl, hp.stuck herr⟩
  | getReply => exact hget h (.refl herr)
  | failed hp => exact ⟨rfl, hp.stuck herr⟩
  | command hp _ => exact hget (h.appended hp (Small.room hsmall)) (hp.stuck herr)
  | nonblocking hp _ => exact ⟨rfl, hp.stuck herr⟩

theorem Ordered.run_stuck {env : Formatting} {calls : List Call} (h : Ordered fn store s)
    (herr : s.c.err ≠ none) (hmeets : (client strerror env fn store).Meets (Small env) s calls)
    (hrun : (client strerror env fn store).run s calls = some s') :
    Ordered fn store s' ∧ Stuck s s' := by
  induction calls generalizing s with
  | nil =>
      obtain rfl := Option.some.inj hrun
      exact ⟨h, .refl herr⟩
  | cons a calls ih =>
      obtain ⟨s₁, hstep, hrest⟩ := Option.bind_eq_some_iff.mp hrun
      obtain ⟨hsmall, hmeets⟩ := hmeets
      rw [hstep] at hmeets
      obtain ⟨status, reply, hcall⟩ := step_call hstep
      obtain ⟨-, hstuck⟩ := h.call_stuck herr hsmall hcall
      obtain ⟨h', hstuck'⟩ := ih (h.call hsmall hcall) hstuck.err hmeets hrest
      exact ⟨h', hstuck.trans hstuck'⟩

/-- After an error no run of calls reads or writes, whatever they are; every call
returns, and the replies that were complete before the error are still handed
over. -/
theorem error_stuck {env : Formatting} (hs : (client strerror env fn store).Reach (Small env) s)
    (herr : s.c.err ≠ none) {calls : List Call}
    (hmeets : (client strerror env fn store).Meets (Small env) s calls)
    (hrun : (client strerror env fn store).run s calls = some s') :
    Stuck s s' ∧
      (∀ a p, Small env s' a → s'.call strerror env a = some p → p.1.finished = true) ∧
      (((RedisReader.create fn store).feedChunks [s.received]).1 ≠ s'.replies →
        ∃ obj, (s'.redisGetReply strerror).1 = .returned .ok (some obj)) := by
  obtain ⟨h', hstuck⟩ := (reach_ordered hs).run_stuck herr hmeets hrun
  refine ⟨hstuck, fun a p hsmall hcall ↦ (h'.call_stuck hstuck.err hsmall hcall).1, fun hmore ↦ ?_⟩
  rw [← hstuck.received] at hmore
  obtain ⟨obj, hreply, -⟩ := (redisGetReply_next (hs.run hmeets hrun)).2.2.2.2.2 hmore
  exact ⟨obj, hreply⟩

/-- The client after its second command failed. -/
def pingFailed : Client Heap :=
  (pingRuns.run pingClient [.command ping, .command ping]).get (by decide)

theorem error_stuck_ping :
    ∃ s, pingRuns.run pingFailed [.command ping, .getReply] = some s ∧ Stuck pingFailed s := by
  have hmeets : pingRuns.Meets (Small noArguments) pingClient [.command ping, .command ping] := by
    decide
  have hs : pingRuns.Reach (Small noArguments) pingFailed :=
    (pingClient_reach _).run hmeets (Option.some_get _).symm
  have hmeets' : pingRuns.Meets (Small noArguments) pingFailed [.command ping, .getReply] := by
    decide
  have hrun := (Option.some_get (x := pingRuns.run pingFailed [.command ping, .getReply])
    (by decide)).symm
  exact ⟨_, hrun, (error_stuck hs (by decide) hmeets' hrun).1⟩

/-! ## Answers -/

section Answers

variable {s s' : Client Heap} {store : Heap} {answer : ℕ → ReplyTree}

/-- The server answers the commands in order, and only those it can have got. -/
def Served (answer : ℕ → ReplyTree) (s : Client Heap) : Prop :=
  ∃ n ≤ s.appended.length, s.received <+: ReplyTree.encodeAll ((List.range n).map answer)

/-- Answers that the reader can read. -/
def Readable (answer : ℕ → ReplyTree) : Prop :=
  ∀ n, (answer n).Sendable 0 ∧ (answer n).encode.length < 2 ^ 31

theorem sendableAll_map (hanswer : Readable answer) (l : List ℕ) :
    ReplyTree.SendableAll 0 (l.map answer) := by
  induction l with
  | nil => trivial
  | cons n l ih => exact ⟨(hanswer n).1, ih⟩

/-- What the stream holds are answers, no more than there were commands. -/
theorem Served.stream (h : Served answer s) (hanswer : Readable answer) (hq : store.Quiet) :
    ∃ out, ((RedisReader.create defaultFunctions store).feedChunks [s.received]).1 <+: out ∧
      out.length ≤ s.appended.length ∧
      List.Forall₂ (fun n p ↦ ReplyTree.Represents p.2.cells p.1 (answer n))
        (List.range out.length) out := by
  obtain ⟨n, hn, more, hmore⟩ := h
  have hlaw := ReadState.replyStep_lawful defaultFunctions
  have hwf := RedisReader.create_start_wf defaultFunctions store
  have hready : (RedisReader.create defaultFunctions store).start.Ready := ⟨rfl, rfl, hq⟩
  have hlen : ∀ t ∈ (List.range n).map answer, t.encode.length < 2 ^ 31 := by
    intro t ht
    obtain ⟨k, -, rfl⟩ := List.mem_map.mp ht
    exact (hanswer k).2
  obtain ⟨out, s', hdrain, -, hall⟩ :=
    ReadState.drain_encodeEach _ (sendableAll_map hanswer _) hlen hready
  have hcount : out.length = n := by
    rw [← hall.length_eq, List.length_map, List.length_range]
  refine ⟨out, ?_, hcount.trans_le hn, ?_⟩
  · rw [RedisReader.feedChunks_singleton]
    rw [← hmore, Resumable.drain_append hlaw hwf] at hdrain
    exact ⟨_, congrArg Prod.fst hdrain⟩
  · rw [hcount]
    exact List.forall₂_map_left_iff.mp hall

theorem Ordered.answered (h : Ordered defaultFunctions store s) (hserved : Served answer s)
    (hanswer : Readable answer) (hq : store.Quiet) :
    s.replies.length ≤ s.appended.length ∧
      List.Forall₂ (fun n p ↦ ReplyTree.Represents p.2.cells p.1 (answer n))
        (List.range s.replies.length) s.replies := by
  obtain ⟨out, hout, hcount, hall⟩ := hserved.stream hanswer hq
  have hfirst : s.replies <+: out := h.caught_first.trans hout
  have hless := hfirst.length_le
  have htake := List.forall₂_take s.replies.length hall
  rw [← List.prefix_iff_eq_take.mp hfirst, List.take_range, min_eq_left hless] at htake
  exact ⟨hless.trans hcount, htake⟩

/-- Whatever the calls are, the replies that were handed over are the answers to the
first commands, in order. -/
theorem replies_answered {env : Formatting}
    (hs : (client strerror env defaultFunctions store).Reach (Small env) s) (hq : store.Quiet)
    (hanswer : Readable answer) (hserved : Served answer s) :
    s.replies.length ≤ s.appended.length ∧
      List.Forall₂ (fun n p ↦ ReplyTree.Represents p.2.cells p.1 (answer n))
        (List.range s.replies.length) s.replies :=
  (reach_ordered hs).answered hserved hanswer hq

theorem pong_readable : Readable fun _ ↦ pong := by
  intro n
  change ReplyTree.Sendable 0 (.status [80, 79, 78, 71]) ∧ pong.encode.length < 2 ^ 31
  refine ⟨?_, by decide⟩
  rw [ReplyTree.Sendable]
  decide

theorem empty_quiet : Heap.empty.Quiet := ⟨rfl, fun _ ↦ rfl⟩

theorem replies_answered_ping :
    ∃ s, pingRuns.run pingClient [.append ping, .command ping] = some s ∧
      s.replies.length ≤ s.appended.length := by
  have hmeets : pingRuns.Meets (Small noArguments) pingClient [.append ping, .command ping] := by
    decide
  have hs := (pingClient_reach _).run hmeets rfl
  exact ⟨_, rfl, (replies_answered hs empty_quiet pong_readable ⟨1, by decide, by decide⟩).1⟩

/-! ## One command at a time -/

/-- The runs of `redisCommand` on a blocking context, with a server. -/
def Alone (env : Formatting) (answer : ℕ → ReplyTree) (s : Client Heap) (a : Call) : Prop :=
  Small env s a ∧ s.c.block = true ∧ Served answer s ∧ ∃ cmd, a = .command cmd

/-- Between the calls of `redisCommand` no answer is left behind, up to an error. -/
structure Balanced (store : Heap) (s : Client Heap) : Prop where
  ordered : Ordered defaultFunctions store s
  counts : s.c.err = none → s.replies.length = s.appended.length
  caught : s.c.err ≠ none → Caught defaultFunctions store s

theorem Balanced.all_caught (h : Balanced store s) (hanswer : Readable answer)
    (hq : store.Quiet) (hserved : Served answer s) : Caught defaultFunctions store s := by
  by_cases herr : s.c.err = none
  · obtain ⟨out, hout, hcount, -⟩ := hserved.stream hanswer hq
    have hle := hout.length_le.trans hcount
    rw [← h.counts herr] at hle
    exact (h.ordered.caught_first.eq_of_length_le hle).symm
  · exact h.caught herr

/-- What `redisCommand` comes to when no answer is left behind. -/
inductive Answer (store : Heap) (s : Client Heap) : Exit × Client Heap → Prop
  | reply {obj : Obj} {s' : Client Heap} {bytes : List UInt8} (h : Balanced store s')
      (happended : s'.appended = s.appended ++ [bytes])
      (hreplies : s'.replies = s.replies ++ [(obj, s'.c.reader.store)])
      (hcount : s.replies.length = s.appended.length) :
      Answer store s (.returned .ok (some obj), s')
  | error {s' : Client Heap} (h : Balanced store s') (herr : s'.c.err ≠ none) :
      Answer store s (.returned .err none, s')
  | waits {exit : Exit} {s' : Client Heap} (hwaits : exit.finished = false) :
      Answer store s (exit, s')

theorem Balanced.command {env : Formatting} {cmd : Command} {p : Exit × Client Heap}
    (h : Balanced store s) (hcaught : Caught defaultFunctions store s) (hblock : s.c.block = true)
    (hsmall : Small env s (.command cmd)) (hcall : s.call strerror env (.command cmd) = some p) :
    Answer store s p := by
  cases call_cases hcall with
  | @failed _ s' hp =>
      have h' := h.ordered.appended hp (Small.room hsmall)
      cases hp with
      | error herr hobuf hreader _ =>
          exact .error ⟨h', fun hnone ↦ absurd hnone herr, fun _ ↦ hcaught⟩ herr
  | @nonblocking _ s' hp hnot =>
      cases hp with
      | cmd _ => exact absurd (hblock.symm.trans hnot) (by decide)
  | @command _ s₁ hp hblock₁ =>
      have h₁ := h.ordered.appended hp (Small.room hsmall)
      obtain ⟨h', hwithin, houtcome⟩ := h₁.redisGetReply strerror
      have hstuck : s.c.err ≠ none → Stuck s₁ (s₁.redisGetReply strerror).2 := by
        intro herr
        obtain ⟨status, reply, s', hreturns, hstuck⟩ :=
          h₁.redisGetReply_stuck strerror (hp.stuck herr).err
        exact hreturns ▸ hstuck
      cases hp with
      | @cmd len bytes hr =>
          rcases hget : (s.append (bytes.take len.toNat)).redisGetReply strerror with ⟨exit, s'⟩
          rw [hget] at h' hwithin houtcome hstuck
          cases houtcome with
          | reply hnew hkeep =>
              have hnone : s.c.err = none := by
                by_contra herr
                have hreceived : s'.received = s.received := (hstuck herr).received
                have hfirst := h'.caught_first.length_le
                rw [hreceived, hcaught, hnew, List.length_append] at hfirst
                exact absurd hfirst (Nat.not_succ_le_self _)
              have hcount := h.counts hnone
              have hnone' : s'.c.err = none := hkeep.elim id fun hsame ↦ hsame.trans hnone
              have happended : s'.appended = s.appended ++ [bytes.take len.toNat] :=
                hwithin.appended
              refine .reply ⟨h', fun _ ↦ ?_, fun herr ↦ absurd hnone' herr⟩ happended hnew hcount
              rw [hnew, happended, List.length_append, List.length_append]
              exact congrArg (· + 1) hcount
          | nothing hnot _ _ =>
              exact absurd ((hwithin.block.trans hblock₁).symm.trans hnot) (by decide)
          | error herr _ hcaught' =>
              exact .error ⟨h', fun hnone ↦ absurd hnone herr, fun _ ↦ hcaught'⟩ herr
          | writing _ _ _ _ _ => exact .waits rfl
          | reading _ _ _ _ _ => exact .waits rfl

theorem reach_balanced {env : Formatting}
    (hs : (client strerror env defaultFunctions store).Reach (Alone env answer) s)
    (hanswer : Readable answer) (hq : store.Quiet) : Balanced store s := by
  apply hs.invariant
  · rintro s ⟨block, writes, reads, rfl⟩
    exact ⟨ordered_connected _ store block writes reads, fun _ ↦ rfl, fun herr ↦ absurd rfl herr⟩
  · rintro s a s' h ⟨hsmall, hblock, hserved, cmd, rfl⟩ hstep
    obtain ⟨status, reply, hcall⟩ := step_call hstep
    have hcaught := h.all_caught hanswer hq hserved
    cases h.command hcaught hblock hsmall hcall with
    | reply h' _ _ _ => exact h'
    | error h' _ => exact h'
    | waits hwaits => cases hwaits

/-- A client that only calls `redisCommand` gets the answer to each command from
that very call, however the bytes are cut and whatever fails, or else an error
or no return. -/
theorem redisCommand_answer {env : Formatting} {cmd : Command} {exit : Exit}
    (hs : (client strerror env defaultFunctions store).Reach (Alone env answer) s)
    (hanswer : Readable answer) (hq : store.Quiet) (halone : Alone env answer s (.command cmd))
    (hcall : s.call strerror env (.command cmd) = some (exit, s')) (hserved : Served answer s') :
    (∃ obj, exit = .returned .ok (some obj) ∧
        ReplyTree.Represents s'.c.reader.store.cells obj (answer s.appended.length) ∧
        s'.replies.length = s'.appended.length) ∨
      exit = .returned .err none ∧ s'.c.err ≠ none ∨ exit.finished = false := by
  have h := reach_balanced hs hanswer hq
  obtain ⟨hsmall, hblock, hserved₀, -⟩ := halone
  cases h.command (h.all_caught hanswer hq hserved₀) hblock hsmall hcall with
  | @reply obj _ bytes h' happended hreplies hcount =>
      refine Or.inl ⟨obj, rfl, ?_, ?_⟩
      · have hall := (h'.ordered.answered hserved hanswer hq).2
        rw [hreplies, List.length_append, List.length_singleton, List.range_succ] at hall
        have hlast := List.forall₂_drop_append _ _ _ hall
        rw [List.drop_left' List.length_range] at hlast
        exact hcount ▸ (List.forall₂_cons.mp hlast).1
      · rw [hreplies, happended, List.length_append, List.length_append, hcount]
        rfl
  | error _ herr => exact Or.inr (Or.inl ⟨rfl, herr⟩)
  | waits hwaits => exact Or.inr (Or.inr hwaits)

theorem redisCommand_answer_ping :
    ∃ s, pingRuns.step pingClient (.command ping) = some s ∧
      s.replies.length = s.appended.length := by
  have halone : Alone noArguments (fun _ ↦ pong) pingClient (.command ping) :=
    ⟨by decide, rfl, ⟨0, by decide, by decide⟩, ping, rfl⟩
  rcases redisCommand_answer (pingClient_reach _) pong_readable empty_quiet halone rfl
      ⟨1, by decide, by decide⟩ with ⟨obj, -, -, hcount⟩ | ⟨-, herr⟩ | hwaits
  · exact ⟨_, rfl, hcount⟩
  · exact absurd rfl herr
  · exact absurd hwaits (by decide)

end Answers

end Ordered

end Blocking

end MuxHiredis
