import MuxHiredis.Reader.Encoding
import Mathlib.Data.List.AList

/-!
# Asynchronous contexts

`redisAsyncContext` of `async.h` with the part of `redisContext` it uses, and
`__redisAsyncCommand`.  A reply is the tree that the reader built for it.  A
failed assertion of the source is a result `none`.
-/

namespace MuxHiredis

/-- A callback and its argument, both pointers; `fn` may be `NULL`. -/
structure RedisCallback where
  fn : Option ℕ
  privdata : ℕ
  deriving DecidableEq, Repr

/-- `{NULL, NULL, NULL}`. -/
def RedisCallback.null : RedisCallback := ⟨none, 0⟩

/-- The flags `REDIS_*` of a context that the asynchronous code uses. -/
structure Flags where
  connected : Bool
  disconnecting : Bool
  freeing : Bool
  inCallback : Bool
  subscribed : Bool
  monitoring : Bool
  deriving DecidableEq, Repr

/-- The flags under which commands are refused. -/
def Flags.closing (f : Flags) : Bool := f.disconnecting || f.freeing

/-- A table of callbacks by channel or pattern. -/
abbrev CallbackDict := AList fun _ : List UInt8 ↦ RedisCallback

/-- What is written down about the life of a context: a command was accepted, a
reply was taken from the reader, a callback was run, `__redisAsyncFree` began,
subscribe or monitor mode was entered, and the calls of the connect and
disconnect callbacks. -/
inductive Event where
  | accept (cb : RedisCallback)
  | reply (r : ReplyTree)
  | run (fn privdata : ℕ) (reply : Option ReplyTree)
  | teardown
  | enterMode
  | onConnect (status : Status)
  | onDisconnect (status : Status)

/-- `cErr` is the error of the `redisContext`, `err` its copy.  `onConnect` and
`onDisconnect` say whether these callbacks are set.  `freed` is raised by the
final `redisFree`; `trace` is the history of the context. -/
structure AsyncContext where
  flags : Flags
  cErr : Option RedisErr
  err : Option RedisErr
  obuf : List UInt8
  onConnect : Bool
  onDisconnect : Bool
  replies : List RedisCallback
  invalid : List RedisCallback
  channels : CallbackDict
  patterns : CallbackDict
  freed : Bool
  trace : List Event

namespace AsyncContext

def record (ac : AsyncContext) (e : Event) : AsyncContext :=
  { ac with trace := ac.trace ++ [e] }

/-- The context of a new connection, with the error its connect left. -/
def redisAsyncInitialize (cErr : Option RedisErr) (onConnect onDisconnect : Bool) :
    AsyncContext where
  flags := ⟨false, false, false, false, false, false⟩
  cErr := cErr
  err := cErr
  obuf := []
  onConnect := onConnect
  onDisconnect := onDisconnect
  replies := []
  invalid := []
  channels := ∅
  patterns := ∅
  freed := false
  trace := []

/-- `__redisShiftCallback(&ac->replies, …)`. -/
def shiftReplies (ac : AsyncContext) : Option (RedisCallback × AsyncContext) :=
  match ac.replies with
  | [] => none
  | cb :: rest => some (cb, { ac with replies := rest })

/-- `__redisShiftCallback(&ac->sub.invalid, …)`. -/
def shiftInvalid (ac : AsyncContext) : Option (RedisCallback × AsyncContext) :=
  match ac.invalid with
  | [] => none
  | cb :: rest => some (cb, { ac with invalid := rest })

end AsyncContext

/-! ## The text of a command -/

def tolower (c : UInt8) : UInt8 := if 65 ≤ c ∧ c ≤ 90 then c + 32 else c

/-- `strncasecmp(s, text, strlen(text)) == 0`, for a lower-case `text`. -/
def hasPrefixNoCase (text s : List UInt8) : Bool :=
  decide ((s.take text.length).map tolower = text)

/-- The C string at the start of `s`. -/
def cString (s : List UInt8) : List UInt8 := s.takeWhile (· ≠ 0)

/-- `strcasecmp(s, text) == 0`, for a lower-case `text`. -/
def equalNoCase (text s : List UInt8) : Bool := decide ((cString s).map tolower = text)

/-- `strchr` for a byte other than the terminator. -/
def strchr (c : UInt8) : List UInt8 → Option (List UInt8)
  | [] => none
  | b :: rest => if b = c then some (b :: rest) else if b = 0 then none else strchr c rest

/-- `strtol` in base 10. -/
def strtol (s : List UInt8) : ℤ :=
  let s := s.dropWhile fun c ↦ c = 32 ∨ 9 ≤ c ∧ c ≤ 13
  let signed : ℤ × List UInt8 :=
    match s with
    | c :: rest => if c = 45 then (-1, rest) else if c = 43 then (1, rest) else (1, s)
    | [] => (1, s)
  let digits := signed.2.takeWhile fun c ↦ 48 ≤ c ∧ c < 58
  let value : ℤ := digits.foldl (fun v c ↦ v * 10 + ((c.toNat : ℤ) - 48)) 0
  max (-2 ^ 63) (min (2 ^ 63 - 1) (signed.1 * value))

/-- What `nextArgument` finds at a pointer into a command: nothing more, or the
text from the argument on, the length of the argument, and the place after it. -/
inductive NextArgument where
  | null
  | found (str : List UInt8) (len : ℕ) (next : List UInt8)
  deriving DecidableEq, Repr

/-- `nextArgument`.  There is no result when its assertion fails or the length
points outside of the command. -/
def nextArgument (p : List UInt8) : Option NextArgument :=
  match strchr 36 p with
  | none => some .null
  | some q =>
      let len := wrap32 (strtol (q.drop 1))
      match strchr cr q with
      | none => none
      | some t =>
          let str := t.drop 2
          if 0 ≤ len ∧ len.toNat + 2 ≤ str.length then
            some (.found str len.toNat (str.drop (len.toNat + 2)))
          else none

/-- The arguments from `p` on.  Each takes up bytes of the command, which bounds
the loop. -/
def argumentsFor : ℕ → List UInt8 → Option (List (List UInt8))
  | 0, _ => some []
  | fuel + 1, p =>
      match nextArgument p with
      | none => none
      | some .null => some []
      | some (.found str len next) => (argumentsFor fuel next).map (str.take len :: ·)

/-- What `__redisAsyncCommand` takes a command for.  `pattern` is `pvariant`. -/
inductive CommandKind where
  | subscribe (pattern : Bool) (names : List (List UInt8))
  | unsubscribe
  | monitor
  | regular
  deriving DecidableEq, Repr

/-- The lower-case name with the line end that the source compares with. -/
def nameLine (name : String) : List UInt8 := name.toList.map (·.toNat.toUInt8) ++ crlf

/-- Find out which command will be appended. -/
def commandKind (cmd : List UInt8) : Option CommandKind :=
  match nextArgument cmd with
  | none | some .null => none
  | some (.found cstr _ p) =>
      let hasnext := p.head? = some 36
      let pvariant : Bool := decide (cstr.head?.map tolower = some 112)
      let cstr := if pvariant then cstr.drop 1 else cstr
      if hasnext ∧ hasPrefixNoCase (nameLine "subscribe") cstr then
        (argumentsFor (p.length + 1) p).map (.subscribe pvariant)
      else if hasPrefixNoCase (nameLine "unsubscribe") cstr then some .unsubscribe
      else if hasPrefixNoCase (nameLine "monitor") cstr then some .monitor
      else some .regular

/-! ## Issuing a command -/

namespace AsyncContext

/-- `dictReplace` on the table a subscription goes into. -/
def subscribeTo (ac : AsyncContext) (pattern : Bool) (cb : RedisCallback)
    (name : List UInt8) : AsyncContext :=
  if pattern then { ac with patterns := ac.patterns.insert name cb }
  else { ac with channels := ac.channels.insert name cb }

/-- Register the callback of a command of the given kind; `none` when the
command is refused. -/
def registerCallback (ac : AsyncContext) (kind : CommandKind) (cb : RedisCallback) :
    Option AsyncContext :=
  match kind with
  | .subscribe pattern names =>
      let ac := { ac with flags := { ac.flags with subscribed := true } }
      some ((names.foldl (fun ac name ↦ ac.subscribeTo pattern cb name) ac).record .enterMode)
  | .unsubscribe => if ac.flags.subscribed then some ac else none
  | .monitor =>
      some ({ ac with
        flags := { ac.flags with monitoring := true }
        replies := ac.replies ++ [cb] }.record .enterMode)
  | .regular =>
      if ac.flags.subscribed then some { ac with invalid := ac.invalid ++ [cb] }
      else some { ac with replies := ac.replies ++ [cb] }

/-- `__redisAsyncCommand`. -/
def asyncCommand (ac : AsyncContext) (fn : Option ℕ) (privdata : ℕ) (cmd : List UInt8) :
    Option (Status × AsyncContext) :=
  if ac.flags.closing then some (.err, ac)
  else
    (commandKind cmd).map fun kind ↦
      match ac.registerCallback kind ⟨fn, privdata⟩ with
      | none => (.err, ac)
      | some ac => (.ok, { ac with obuf := ac.obuf ++ cmd }.record (.accept ⟨fn, privdata⟩))

end AsyncContext

end MuxHiredis
