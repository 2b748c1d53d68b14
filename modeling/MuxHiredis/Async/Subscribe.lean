import MuxHiredis.Async.Callbacks
import MuxHiredis.Format.Bytes

/-!
# Subscribing

`redisAsyncCommandArgv`, and what it registers for a SUBSCRIBE or a PSUBSCRIBE.
-/

namespace MuxHiredis

/-- From the place `p` on `nextArgument` finds the arguments, and then nothing
more. -/
inductive ArgumentsAt : List UInt8 → List (List UInt8) → Prop
  | stop {p : List UInt8} : nextArgument p = some .null → ArgumentsAt p []
  | next {p str next : List UInt8} {len : ℕ} {args : List (List UInt8)} :
      nextArgument p = some (.found str len next) → ArgumentsAt next args →
      ArgumentsAt p (str.take len :: args)

theorem argumentsAt_bulks {args : List (List UInt8)} (h : ∀ arg ∈ args, arg.length < 2 ^ 31) :
    ArgumentsAt (args.flatMap bulk) args := by
  induction args with
  | nil => exact .stop rfl
  | cons arg args ih =>
      have hnext := nextArgument_bulk (h arg (by simp)) (args.flatMap bulk)
      have hargs := ArgumentsAt.next hnext (ih fun a ha ↦ h a (by simp [ha]))
      rwa [List.append_assoc, List.take_left] at hargs

/-- The arguments of a formatted command are what it was made from. -/
theorem argumentsAt_format {name : List UInt8} {args : List (List UInt8)}
    (h : ∀ arg ∈ name :: args, arg.length < 2 ^ 31) :
    ArgumentsAt (redisFormatCommandArgv (name :: args)) (name :: args) := by
  have hnext := nextArgument_bulk (h name (by simp)) (args.flatMap bulk)
  rw [← nextArgument_format] at hnext
  have hargs := ArgumentsAt.next hnext (argumentsAt_bulks fun a ha ↦ h a (by simp [ha]))
  rwa [List.append_assoc, List.take_left] at hargs

namespace AsyncContext

/-- `redisAsyncCommandArgv`.  There is no result when the formatting goes
wrong. -/
def redisAsyncCommandArgv (ac : AsyncContext) (fn : Option ℕ) (privdata : ℕ)
    (argv : List (List UInt8)) (argvlen : Option (List ℕ)) : Option (Status × AsyncContext) :=
  match Format.redisFormatSdsCommandArgv argv argvlen with
  | .cmd len cmd => if len < 0 then some (.err, ac) else ac.asyncCommand fn privdata cmd
  | .err _ => some (.err, ac)
  | .fault _ => none

/-- From `ac` to `ac'` the callback `cb` was registered for the names, in one of
the tables, and the command `cmd` was appended. -/
structure Subscribes (pattern : Bool) (names : List (List UInt8)) (cb : RedisCallback)
    (cmd : List UInt8) (ac ac' : AsyncContext) : Prop where
  table : ∀ name, (ac'.callbacks pattern).lookup name =
    if name ∈ names then some cb else (ac.callbacks pattern).lookup name
  other : ac'.callbacks (!pattern) = ac.callbacks (!pattern)
  obuf : ac'.obuf = ac.obuf ++ cmd
  replies : ac'.replies = ac.replies
  invalid : ac'.invalid = ac.invalid
  flags : ac'.flags = { ac.flags with subscribed := true }

theorem subscribeTo_subscribes (ac : AsyncContext) (pattern : Bool) (cb : RedisCallback)
    (name : List UInt8) :
    (∀ n, ((ac.subscribeTo pattern cb name).callbacks pattern).lookup n =
        if n = name then some cb else (ac.callbacks pattern).lookup n) ∧
      (ac.subscribeTo pattern cb name).callbacks (!pattern) = ac.callbacks (!pattern) := by
  have hinsert : ∀ (d : CallbackDict) n,
      (d.insert name cb).lookup n = if n = name then some cb else d.lookup n := by
    intro d n
    by_cases h : n = name
    · rw [if_pos h, h, AList.lookup_insert]
    · rw [if_neg h, AList.lookup_insert_ne h]
  cases pattern
  · exact ⟨hinsert ac.channels, rfl⟩
  · exact ⟨hinsert ac.patterns, rfl⟩

theorem subscribeAll_subscribes (ac : AsyncContext) (pattern : Bool) (cb : RedisCallback)
    (names : List (List UInt8)) :
    (∀ n, ((names.foldl (fun ac name ↦ ac.subscribeTo pattern cb name) ac).callbacks
        pattern).lookup n = if n ∈ names then some cb else (ac.callbacks pattern).lookup n) ∧
      (names.foldl (fun ac name ↦ ac.subscribeTo pattern cb name) ac).callbacks (!pattern) =
        ac.callbacks (!pattern) := by
  induction names generalizing ac with
  | nil => exact ⟨fun n ↦ by simp, rfl⟩
  | cons name names ih =>
      obtain ⟨htable, hother⟩ := ih (ac.subscribeTo pattern cb name)
      obtain ⟨hone, hone'⟩ := subscribeTo_subscribes ac pattern cb name
      refine ⟨fun n ↦ ?_, hother.trans hone'⟩
      rw [List.foldl_cons, htable, hone]
      by_cases hn : n ∈ names
      · simp [hn]
      · by_cases heq : n = name <;> simp [hn, heq]

/-- The rest of the context is not touched by a subscription. -/
theorem subscribeAll_frame (ac : AsyncContext) (pattern : Bool) (cb : RedisCallback)
    (names : List (List UInt8)) :
    let ac' := names.foldl (fun ac name ↦ ac.subscribeTo pattern cb name) ac
    ac'.obuf = ac.obuf ∧ ac'.replies = ac.replies ∧ ac'.invalid = ac.invalid ∧
      ac'.flags = ac.flags := by
  induction names generalizing ac with
  | nil => exact ⟨rfl, rfl, rfl, rfl⟩
  | cons name names ih =>
      have hone : (ac.subscribeTo pattern cb name).obuf = ac.obuf ∧
          (ac.subscribeTo pattern cb name).replies = ac.replies ∧
          (ac.subscribeTo pattern cb name).invalid = ac.invalid ∧
          (ac.subscribeTo pattern cb name).flags = ac.flags := by
        cases pattern <;> exact ⟨rfl, rfl, rfl, rfl⟩
      obtain ⟨hobuf, hreplies, hinvalid, hflags⟩ := ih (ac.subscribeTo pattern cb name)
      exact ⟨hobuf.trans hone.1, hreplies.trans hone.2.1, hinvalid.trans hone.2.2.1,
        hflags.trans hone.2.2.2⟩

theorem asyncCommand_subscribe {ac : AsyncContext} (hopen : ac.flags.closing = false)
    {cmd : List UInt8} {pattern : Bool} {names : List (List UInt8)}
    (hkind : commandKind cmd = some (.subscribe pattern names)) (fn : Option ℕ) (privdata : ℕ) :
    ∃ ac', ac.asyncCommand fn privdata cmd = some (.ok, ac') ∧
      Subscribes pattern names ⟨fn, privdata⟩ cmd ac ac' := by
  obtain ⟨htable, hother⟩ := subscribeAll_subscribes
    { ac with flags := { ac.flags with subscribed := true } } pattern ⟨fn, privdata⟩ names
  obtain ⟨hobuf, hreplies, hinvalid, hflags⟩ := subscribeAll_frame
    { ac with flags := { ac.flags with subscribed := true } } pattern ⟨fn, privdata⟩ names
  rw [asyncCommand, if_neg (by simp [hopen]), hkind]
  exact ⟨_, rfl, htable, hother, congrArg (· ++ cmd) hobuf, hreplies, hinvalid, hflags⟩

/-- Names of arbitrary bytes are registered as they were given. -/
theorem redisAsyncCommandArgv_subscribe {ac : AsyncContext} (hopen : ac.flags.closing = false)
    {argv : List (List UInt8)} {argvlen : Option (List ℕ)} {pattern : Bool} {name : List UInt8}
    {args : List (List UInt8)} (hargv : Format.arguments argv argvlen = name :: args)
    (hname : name.map tolower = pubsubWord pattern "subscribe") (hargs : args ≠ [])
    (hlen : (redisFormatCommandArgv (name :: args)).length < 2 ^ 31)
    (fn : Option ℕ) (privdata : ℕ) :
    ArgumentsAt (redisFormatCommandArgv (name :: args)) (name :: args) ∧
      ∃ ac', ac.redisAsyncCommandArgv fn privdata argv argvlen = some (.ok, ac') ∧
        Subscribes pattern args ⟨fn, privdata⟩ (redisFormatCommandArgv (name :: args)) ac ac' := by
  have hsmall : ∀ arg ∈ name :: args, arg.length < 2 ^ 31 := by
    intro arg harg
    have hle := (Format.le_flatMap_length Format.lt_bulk_length (name :: args)).2 arg harg
    simp only [redisFormatCommandArgv, List.length_cons, List.length_append] at hlen
    omega
  refine ⟨argumentsAt_format hsmall, ?_⟩
  have hformat := Format.redisFormatSdsCommandArgv_fits argv argvlen (hargv ▸ rfl) hlen
  rw [hargv] at hformat
  have hkind := commandKind_subscribe hname hargs fun arg harg ↦ hsmall arg (by simp [harg])
  obtain ⟨ac', hissue, hsubscribes⟩ := asyncCommand_subscribe hopen hkind fn privdata
  refine ⟨ac', ?_, hsubscribes⟩
  rw [redisAsyncCommandArgv, hformat]
  exact (if_neg (by omega)).trans hissue

theorem redisAsyncCommandArgv_subscribe_bytes :
    ArgumentsAt (redisFormatCommandArgv [ascii "pSubscribe", [36, 13, 10], []])
        [ascii "pSubscribe", [36, 13, 10], []] ∧
      ∃ ac', (redisAsyncInitialize none false false).redisAsyncCommandArgv (some 1) 2
          [ascii "pSubscribe", [36, 13, 10], []] (some [10, 3, 0]) = some (.ok, ac') ∧
        Subscribes true [[36, 13, 10], []] ⟨some 1, 2⟩
          (redisFormatCommandArgv [ascii "pSubscribe", [36, 13, 10], []])
          (redisAsyncInitialize none false false) ac' :=
  redisAsyncCommandArgv_subscribe rfl (by decide) (by decide) (by decide) (by decide) (some 1) 2

end AsyncContext

end MuxHiredis
