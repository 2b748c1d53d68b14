import MuxHiredis.Async.Callbacks
import MuxHiredis.Format.Basic
import MuxHiredis.Lib.Machine

/-!
# The output buffer

The functions of `hiredis.c` that append commands to `c->obuf` and write it to
the socket.  Allocations succeed.  `done` is what `*done` is set to, if it is.
-/

namespace MuxHiredis

namespace Output

/-- The part of `redisContext` that has to do with output; `block` is the flag
`REDIS_BLOCK`. -/
structure Context where
  err : Option RedisErr
  block : Bool
  obuf : Sds

/-- `__redisAppendCommand`. -/
def appendCommand (c : Context) (cmd : List UInt8) : Context :=
  { c with obuf := sdscatlen c.obuf cmd }

/-- The result of `write()`. -/
inductive WriteResult where
  | written (n : ℕ)
  | eagain
  | eintr
  | failed
  deriving DecidableEq, Repr

/-- The bytes that the socket took, of those that `write()` was called with, if it was. -/
def WriteResult.took (w : WriteResult) : Option (List UInt8) → List UInt8
  | none => []
  | some buf =>
      match w with
      | .written n => buf.take n
      | .eagain | .eintr | .failed => []

/-- What `redisBufferWrite` returns and sets `*done` to, what it called `write()`
with, and the context after it. -/
structure Written where
  status : Status
  done : Option Bool
  call : Option (List UInt8)
  c : Context

/-- The end of `redisBufferWrite`. -/
def finish (call : Option (List UInt8)) (c : Context) : Written :=
  ⟨.ok, some (decide (sdslen c.obuf = 0)), call, c⟩

def redisBufferWrite (w : WriteResult) (c : Context) : Written :=
  -- Return early when the context has seen an error.
  if c.err ≠ none then ⟨.err, none, none, c⟩
  else if 0 < sdslen c.obuf then
    let call := some c.obuf.bytes
    let fail : Written := ⟨.err, none, call, { c with err := some .io }⟩
    match w with
    | .failed => fail
    | .eagain => if c.block then fail else finish call c
    | .eintr => finish call c
    | .written n =>
        let nwritten := wrap32 n
        if 0 < nwritten then
          if nwritten = wrap32 (sdslen c.obuf) then finish call { c with obuf := sdsempty }
          else finish call { c with obuf := sdsrange c.obuf nwritten (-1) }
        else finish call c
  else finish none c

/-! ## Appending and writing in any order -/

/-- A call that has to do with output.  An asynchronous command, formatted, is
accepted or not. -/
inductive Call where
  | append (format : List UInt8) (ap : List Format.VaArg)
  | appendArgv (argv : List (List UInt8)) (argvlen : Option (List ℕ))
  | async (accepted : Bool) (cmd : List UInt8)
  | write (w : WriteResult)

/-- A context, what the socket took so far, and the commands that were
appended. -/
structure State where
  c : Context
  socket : List UInt8
  appended : List (List UInt8)

def State.append (s : State) (cmd : List UInt8) : State :=
  { s with c := appendCommand s.c cmd, appended := s.appended ++ [cmd] }

/-- What `redisvAppendCommand` and `redisAppendCommandArgv` do with a formatted
command; there is no result when the formatting goes wrong. -/
def State.appendResult (s : State) : Format.Result → Option State
  | .cmd len bytes => if len < 0 then none else some (s.append (bytes.take len.toNat))
  | .err code =>
      some { s with c := { s.c with err := some (if code = -1 then .oom else .other) } }
  | .fault _ => none

def step (vsnprintf : List UInt8 → List Format.VaArg → List UInt8) (s : State) :
    Call → Option State
  | .append format ap =>
      s.appendResult (Format.redisvFormatCommand (fun _ ↦ true) vsnprintf format ap)
  | .appendArgv argv argvlen => s.appendResult (Format.redisFormatSdsCommandArgv argv argvlen)
  | .async accepted cmd => some (if accepted then s.append cmd else s)
  | .write w =>
      let r := redisBufferWrite w s.c
      some { s with c := r.c, socket := s.socket ++ w.took r.call }

/-- The output of a context that starts with an empty buffer. -/
def output (vsnprintf : List UInt8 → List Format.VaArg → List UInt8) : Machine State Call where
  start s := s.c.obuf = sdsempty ∧ s.socket = [] ∧ s.appended = []
  step := step vsnprintf

/-- `write()` takes no more than it is given. -/
def WriteResult.Fits (w : WriteResult) (c : Context) : Prop :=
  match w with
  | .written n => n ≤ sdslen c.obuf
  | _ => True

instance : (w : WriteResult) → (c : Context) → Decidable (w.Fits c)
  | .written n, c => inferInstanceAs (Decidable (n ≤ sdslen c.obuf))
  | .eagain, _ => .isTrue trivial
  | .eintr, _ => .isTrue trivial
  | .failed, _ => .isTrue trivial

/-- The socket is broken, and not just not ready. -/
def WriteResult.Hard (w : WriteResult) (c : Context) : Prop :=
  w = .failed ∨ w = .eagain ∧ c.block = true

/-- The unsent data stay below `2 ^ 31` bytes. -/
def Small (vsnprintf : List UInt8 → List Format.VaArg → List UInt8) (s : State) (a : Call) :
    Prop :=
  (match a with
    | .write w => w.Fits s.c
    | _ => True) ∧
  match step vsnprintf s a with
  | some s' => sdslen s'.c.obuf < 2 ^ 31
  | none => True

instance (vsnprintf : List UInt8 → List Format.VaArg → List UInt8) (s : State) (a : Call) :
    Decidable (Small vsnprintf s a) :=
  have : Decidable (match a with
      | .write w => w.Fits s.c
      | _ => True) :=
    match a with
    | .write w => inferInstanceAs (Decidable (w.Fits s.c))
    | .append _ _ | .appendArgv _ _ | .async _ _ => .isTrue trivial
  have : Decidable (match step vsnprintf s a with
      | some s' => sdslen s'.c.obuf < 2 ^ 31
      | none => True) :=
    match step vsnprintf s a with
    | some s' => inferInstanceAs (Decidable (sdslen s'.c.obuf < 2 ^ 31))
    | none => .isTrue trivial
  inferInstanceAs (Decidable (_ ∧ _))

/-! ## One write -/

/-- What a write does: the socket takes the beginning of the buffer, or it fails and
changes nothing but the error. -/
theorem redisBufferWrite_cases (w : WriteResult) (c : Context) (hfits : w.Fits c)
    (hsmall : sdslen c.obuf < 2 ^ 31) :
    let r := redisBufferWrite w c
    (r.status = .ok ∧ c.err = none ∧ r.c.err = none ∧
        w.took r.call ++ r.c.obuf.bytes = c.obuf.bytes ∧
        r.done = some (decide (r.c.obuf.bytes = [])) ∧ ¬(0 < sdslen c.obuf ∧ w.Hard c)) ∨
      (r.status = .err ∧ r.c.err ≠ none ∧ r.c.obuf = c.obuf ∧ w.took r.call = [] ∧
        (c.err ≠ none ∨ 0 < sdslen c.obuf ∧ w.Hard c)) := by
  have hdone : ∀ s : Sds, decide (sdslen s = 0) = decide (s.bytes = []) := by
    intro s
    rw [decide_eq_decide]
    exact List.length_eq_zero_iff
  simp only [redisBufferWrite]
  by_cases herr : c.err = none
  · rw [if_neg (by simp [herr])]
    by_cases hlen : 0 < sdslen c.obuf
    · rw [if_pos hlen]
      cases w with
      | failed => exact Or.inr ⟨rfl, by simp, rfl, rfl, Or.inr ⟨hlen, Or.inl rfl⟩⟩
      | eagain =>
          by_cases hblock : c.block = true
          · dsimp only
            rw [if_pos hblock]
            exact Or.inr ⟨rfl, by simp, rfl, rfl, Or.inr ⟨hlen, Or.inr ⟨rfl, hblock⟩⟩⟩
          · dsimp only
            rw [if_neg hblock]
            refine Or.inl ⟨rfl, herr, herr, rfl, by rw [finish, hdone], ?_⟩
            rintro ⟨-, hfailed | ⟨-, hyes⟩⟩
            · cases hfailed
            · exact hblock hyes
      | eintr =>
          refine Or.inl ⟨rfl, herr, herr, rfl, by rw [finish, hdone], ?_⟩
          rintro ⟨-, hfailed | ⟨hagain, -⟩⟩
          · cases hfailed
          · cases hagain
      | written n =>
          have hn : n ≤ sdslen c.obuf := hfits
          have hwrap : wrap32 n = n := wrap32_of_lt (by omega) (by omega)
          have hwrap' : wrap32 (sdslen c.obuf) = sdslen c.obuf :=
            wrap32_of_lt (by omega) (by omega)
          have hsoft : ¬(0 < sdslen c.obuf ∧ (WriteResult.written n).Hard c) := by
            rintro ⟨-, hfailed | ⟨hagain, -⟩⟩
            · cases hfailed
            · cases hagain
          simp only [hwrap, hwrap']
          by_cases hpos : (0 : ℤ) < n
          · rw [if_pos hpos]
            by_cases hall : (n : ℤ) = sdslen c.obuf
            · -- Everything was written: the buffer is replaced by an empty one.
              rw [if_pos hall]
              refine Or.inl ⟨rfl, herr, herr, ?_, by rw [finish, hdone], hsoft⟩
              have hlength : c.obuf.bytes.length ≤ n := Nat.le_of_eq (by exact_mod_cast hall.symm)
              exact (List.append_nil _).trans (List.take_of_length_le hlength)
            · rw [if_neg hall]
              refine Or.inl ⟨rfl, herr, herr, ?_, by rw [finish, hdone], hsoft⟩
              have hdrop := sdsrange_drop c.obuf hn
              change c.obuf.bytes.take n ++ (sdsrange c.obuf n (-1)).bytes = c.obuf.bytes
              rw [hdrop, List.take_append_drop]
          · obtain rfl : n = 0 := by omega
            rw [if_neg hpos]
            exact Or.inl ⟨rfl, herr, herr, rfl, by rw [finish, hdone], hsoft⟩
    · rw [if_neg hlen]
      exact Or.inl ⟨rfl, herr, herr, rfl, by rw [finish, hdone], fun h ↦ hlen h.1⟩
  · rw [if_pos herr]
    exact Or.inr ⟨rfl, herr, rfl, rfl, Or.inl herr⟩

/-! ## All calls -/

variable {vsnprintf : List UInt8 → List Format.VaArg → List UInt8}

/-- Nothing is lost or repeated, and the buffer is small. -/
structure Streamed (s : State) : Prop where
  stream : s.socket ++ s.c.obuf.bytes = s.appended.flatten
  small : sdslen s.c.obuf < 2 ^ 31

/-- From `s` to `s'` nothing was written, and only the commands `cmds` were
appended. -/
structure Stuck (s s' : State) : Prop where
  err : s'.c.err ≠ none
  socket : s'.socket = s.socket
  rest : ∃ cmds, s'.appended = s.appended ++ cmds ∧
    s'.c.obuf.bytes = s.c.obuf.bytes ++ cmds.flatten

theorem Stuck.refl {s : State} (h : s.c.err ≠ none) : Stuck s s := ⟨h, rfl, [], by simp⟩

theorem Stuck.trans {s₁ s₂ s₃ : State} (h : Stuck s₁ s₂) (h' : Stuck s₂ s₃) : Stuck s₁ s₃ := by
  obtain ⟨cmds, happ, hobuf⟩ := h.rest
  obtain ⟨cmds', happ', hobuf'⟩ := h'.rest
  refine ⟨h'.err, h'.socket.trans h.socket, cmds ++ cmds', ?_, ?_⟩
  · rw [happ', happ, List.append_assoc]
  · rw [hobuf', hobuf, List.flatten_append, List.append_assoc]

/-- What a call that is no write does: it may append a command, or see an
error. -/
theorem step_cases {s s' : State} {a : Call} (h : step vsnprintf s a = some s') :
    (∃ w, a = .write w) ∨ (∃ cmd, s' = s.append cmd) ∨
      ∃ err, (s.c.err ≠ none → err ≠ none) ∧ s' = { s with c := { s.c with err := err } } := by
  have hresult : ∀ r, s.appendResult r = some s' → (∃ cmd, s' = s.append cmd) ∨
      ∃ err, (s.c.err ≠ none → err ≠ none) ∧ s' = { s with c := { s.c with err := err } } := by
    intro r hr
    cases r with
    | cmd len bytes =>
        simp only [State.appendResult] at hr
        split at hr
        · cases hr
        · exact Or.inl ⟨_, (Option.some.inj hr).symm⟩
    | err code => exact Or.inr ⟨_, by simp, (Option.some.inj hr).symm⟩
    | fault f => cases hr
  cases a with
  | append format ap => exact Or.inr (hresult _ h)
  | appendArgv argv argvlen => exact Or.inr (hresult _ h)
  | async accepted cmd =>
      cases accepted with
      | true => exact Or.inr (Or.inl ⟨cmd, (Option.some.inj h).symm⟩)
      | false => exact Or.inr (Or.inr ⟨s.c.err, id, (Option.some.inj h).symm⟩)
  | write w => exact Or.inl ⟨w, rfl⟩

theorem Streamed.step {s s' : State} {a : Call} (h : Streamed s) (hsmall : Small vsnprintf s a)
    (hstep : step vsnprintf s a = some s') : Streamed s' := by
  have hlen : sdslen s'.c.obuf < 2 ^ 31 := by
    have hafter := hsmall.2
    rwa [hstep] at hafter
  refine ⟨?_, hlen⟩
  rcases step_cases hstep with ⟨w, rfl⟩ | ⟨cmd, rfl⟩ | ⟨err, -, rfl⟩
  · obtain rfl := Option.some.inj hstep
    rcases redisBufferWrite_cases w s.c hsmall.1 h.small with
      ⟨-, -, -, hbytes, -, -⟩ | ⟨-, -, hobuf, htook, -⟩
    · simp only [List.append_assoc, hbytes, h.stream]
    · simp only [hobuf, htook, List.append_nil, h.stream]
  · simp only [State.append, appendCommand, sdscatlen_bytes, List.flatten_append,
      List.flatten_singleton, ← h.stream, List.append_assoc]
  · exact h.stream

theorem stuck_step {s s' : State} {a : Call} (herr : s.c.err ≠ none)
    (hstep : step vsnprintf s a = some s') : Stuck s s' := by
  rcases step_cases hstep with ⟨w, rfl⟩ | ⟨cmd, rfl⟩ | ⟨err, hkept, rfl⟩
  · obtain rfl := Option.some.inj hstep
    simp only [redisBufferWrite, if_pos herr, WriteResult.took, List.append_nil]
    exact .refl herr
  · exact ⟨herr, rfl, [cmd], rfl, by simp [State.append, appendCommand]⟩
  · exact ⟨hkept herr, rfl, [], by simp⟩

theorem stuck_run {s s' : State} {calls : List Call} (herr : s.c.err ≠ none)
    (hrun : (output vsnprintf).run s calls = some s') : Stuck s s' := by
  induction calls generalizing s with
  | nil => exact Option.some.inj hrun ▸ .refl herr
  | cons a calls ih =>
      obtain ⟨s₁, hstep, hrest⟩ := Option.bind_eq_some_iff.mp hrun
      have hstuck := stuck_step herr hstep
      exact hstuck.trans (ih hstuck.err hrest)

/-- What the socket took and what is left are the appended commands, in order; a
write says that it is done when nothing is left; and it fails after an error, or when the
socket is broken: then nothing is written, then and later. -/
theorem output_stream {s : State} (hs : (output vsnprintf).Reach (Small vsnprintf) s) :
    s.socket ++ s.c.obuf.bytes = s.appended.flatten ∧
      ∀ w, w.Fits s.c →
        let r := redisBufferWrite w s.c
        let s' : State := ⟨r.c, s.socket ++ w.took r.call, s.appended⟩
        (r.status = .ok → r.done = some (decide (r.c.obuf.bytes = []))) ∧
          (r.status = .err ↔ s.c.err ≠ none ∨ 0 < sdslen s.c.obuf ∧ w.Hard s.c) ∧
          (r.status = .err → s'.socket = s.socket ∧ s'.c.obuf = s.c.obuf ∧
            ∀ calls s'', (output vsnprintf).run s' calls = some s'' → Stuck s' s'') := by
  have hstreamed : Streamed s := hs.invariant
    (fun s ⟨hobuf, hsocket, happended⟩ ↦
      ⟨by rw [hobuf, hsocket, happended]; rfl, by rw [hobuf]; decide⟩)
    fun s a s' h hsmall hstep ↦ h.step hsmall hstep
  refine ⟨hstreamed.stream, fun w hfits ↦ ?_⟩
  rcases redisBufferWrite_cases w s.c hfits hstreamed.small with
    ⟨hok, hnone, -, -, hdone, hsoft⟩ | ⟨herr, hfailed, hobuf, htook, hcause⟩
  · have hnot : (redisBufferWrite w s.c).status ≠ .err := by
      rw [hok]
      decide
    refine ⟨fun _ ↦ hdone, iff_of_false hnot ?_, fun h ↦ absurd h hnot⟩
    rintro (hsome | hhard)
    · exact hsome hnone
    · exact hsoft hhard
  · refine ⟨fun h ↦ absurd (herr.symm.trans h) (by decide), iff_of_true herr hcause,
      fun _ ↦ ⟨?_, hobuf, ?_⟩⟩
    · simp only [htook, List.append_nil]
    · exact fun calls s'' hrun ↦ stuck_run hfailed hrun

/-- `PING` in two parts, with a line end that is appended in between. -/
def pingCalls : List Call :=
  [.async true [80, 73, 78, 71], .write (.written 1), .async true [13, 10], .write .eagain,
    .write (.written 3)]

theorem output_stream_ping :
    ∃ s, (output fun _ _ ↦ []).run ⟨⟨none, false, sdsempty⟩, [], []⟩ pingCalls = some s ∧
      s.socket ++ s.c.obuf.bytes = s.appended.flatten := by
  have hmeets : (output fun _ _ ↦ []).Meets (Small fun _ _ ↦ [])
      ⟨⟨none, false, sdsempty⟩, [], []⟩ pingCalls := by decide
  exact ⟨_, rfl, (output_stream (.run (.start ⟨rfl, rfl, rfl⟩) hmeets rfl)).1⟩

/-! ## The output of an asynchronous context -/

theorem registerCallback_obuf {ac ac' : AsyncContext} {kind : CommandKind} {cb : RedisCallback}
    (h : ac.registerCallback kind cb = some ac') : ac'.obuf = ac.obuf := by
  cases kind with
  | subscribe pattern names =>
      obtain rfl := Option.some.inj h
      have hnames : ∀ (names : List (List UInt8)) (ac : AsyncContext),
          (names.foldl (fun ac name ↦ ac.subscribeTo pattern cb name) ac).obuf = ac.obuf := by
        intro names
        induction names with
        | nil => exact fun ac ↦ rfl
        | cons name names ih =>
            intro ac
            rw [List.foldl_cons, ih]
            cases pattern <;> rfl
      exact hnames names _
  | unsubscribe =>
      simp only [AsyncContext.registerCallback] at h
      split at h
      · exact Option.some.inj h ▸ rfl
      · cases h
  | monitor => exact Option.some.inj h ▸ rfl
  | regular =>
      simp only [AsyncContext.registerCallback] at h
      split at h <;> exact Option.some.inj h ▸ rfl

/-- An asynchronous command is a call that appends the command or does nothing. -/
theorem asyncCommand_output {ac ac' : AsyncContext} {fn : Option ℕ} {privdata : ℕ}
    {cmd : List UInt8} {status : Status}
    (h : ac.asyncCommand fn privdata cmd = some (status, ac')) {s : State}
    (hobuf : s.c.obuf.bytes = ac.obuf) :
    ∃ s', step vsnprintf s (.async (decide (status = .ok)) cmd) = some s' ∧
      s'.c.obuf.bytes = ac'.obuf := by
  unfold AsyncContext.asyncCommand at h
  split at h
  · cases h
    exact ⟨s, rfl, hobuf⟩
  · obtain ⟨kind, -, hkind⟩ := Option.map_eq_some_iff.mp h
    cases hreg : ac.registerCallback kind ⟨fn, privdata⟩ with
    | none =>
        rw [hreg] at hkind
        cases hkind
        exact ⟨s, rfl, hobuf⟩
    | some ac₁ =>
        rw [hreg] at hkind
        cases hkind
        refine ⟨s.append cmd, rfl, ?_⟩
        simp [State.append, appendCommand, AsyncContext.record, registerCallback_obuf hreg, hobuf]

/-- A write event writes with `redisBufferWrite`. -/
theorem writeConnected_output (script : ℕ → List ApiCall) {ac : AsyncContext} {c : Context}
    (herr : c.err = ac.cErr) (hobuf : c.obuf.bytes = ac.obuf) {w : WriteResult}
    (hfits : w.Fits c) (hsmall : sdslen c.obuf < 2 ^ 31)
    (hok : (redisBufferWrite w c).status = .ok) :
    ac.writeConnected script (.ok (w.took (redisBufferWrite w c).call).length) =
      some { ac with obuf := (redisBufferWrite w c).c.obuf.bytes } := by
  rcases redisBufferWrite_cases w c hfits hsmall with
    ⟨-, hnone, -, hbytes, -, -⟩ | ⟨hfail, -, -, -, -⟩
  · rw [AsyncContext.writeConnected, if_neg (by simp [← herr, hnone]), ← hobuf, ← hbytes,
      List.drop_left]
  · exact absurd (hfail.symm.trans hok) (by decide)

end Output

end MuxHiredis
