import MuxHiredis.Reply
import MuxHiredis.Sds
import MuxHiredis.Reader.Scan

/-!
# The reply reader

`redisReader` of `read.c`.  The state that does not concern the input buffer is
a structure of its own, so that the functions that only touch the task stack
and the objects can be stated on it.  Allocation of the buffer itself is taken
to succeed.
-/

namespace MuxHiredis

/-- `REDIS_ERR_*`; a field holding one is `none` for the `0` of no error. -/
inductive RedisErr where
  | io | other | eof | protocol | oom
  deriving DecidableEq, Repr

/-- `REDIS_OK` and `REDIS_ERR`. -/
inductive Status where
  | ok | err
  deriving DecidableEq, Repr

/-- `rstack` is indexed by `0 … 8`; `store` is what the object functions work
on. -/
structure ReadState (σ : Type) where
  err : Option RedisErr
  errstr : String
  rstack : ℕ → RedisReadTask
  ridx : ℤ
  reply : Option Obj
  store : σ

structure RedisReader (σ : Type) extends ReadState σ where
  buf : Option Sds
  pos : ℕ
  len : ℕ
  maxbuf : ℕ
  fn : RedisReplyObjectFunctions σ

variable {σ : Type}

/-! ## The task stack -/

namespace ReadState

/-- `&(r->rstack[r->ridx])`. -/
def cur (s : ReadState σ) : RedisReadTask := s.rstack s.ridx.toNat

def setCur (s : ReadState σ) (t : RedisReadTask) : ReadState σ :=
  { s with rstack := Function.update s.rstack s.ridx.toNat t }

/-- The task that `cur->parent` points to. -/
def parent (s : ReadState σ) : Option RedisReadTask := s.cur.parent.map s.rstack

/-- A task for the item `idx` of the array that `parent` describes. -/
def freshTask (idx : ℤ) (parent : Option ℕ) : RedisReadTask :=
  ⟨none, -1, idx, none, parent⟩

/-- `moveToNextTask` with `n` the current index.  The source asserts that the
task below is an array and that `idx` lies below its `elements`. -/
def moveFrom : ℕ → ReadState σ → ReadState σ
  | 0, s => { s with ridx := -1 }
  | n + 1, s =>
      let cur := s.rstack (n + 1)
      let prv := s.rstack n
      if cur.idx = prv.elements - 1 then moveFrom n { s with ridx := n }
      else
        { s with
          ridx := n + 1
          rstack := Function.update s.rstack (n + 1)
            { cur with type := none, elements := -1, idx := cur.idx + 1 } }

def moveToNextTask (s : ReadState σ) : ReadState σ :=
  if s.ridx < 0 then s else moveFrom s.ridx.toNat s

/-- `if (r->ridx == 0) r->reply = obj`. -/
def setRoot (s : ReadState σ) (obj : Obj) : ReadState σ :=
  if s.ridx = 0 then { s with reply := some obj } else s

/-- Open the array `obj`: its first element is the next item. -/
def pushTask (s : ReadState σ) (elements : ℤ) (obj : Obj) : ReadState σ :=
  let s' := s.setCur { s.cur with elements := wrap32 elements, obj := some obj }
  { s' with
    ridx := s.ridx + 1
    rstack := Function.update s'.rstack (s.ridx + 1).toNat
      (freshTask 0 (some s.ridx.toNat)) }

/-- The first task of a reply, when the stack is empty. -/
def start (s : ReadState σ) : ReadState σ :=
  if s.ridx = -1 then
    { s with rstack := Function.update s.rstack 0 (freshTask (-1) none), ridx := 0 }
  else s

/-! ## Objects -/

/-- Run a create function; without one, the type's code stands for the object. -/
def makeObject (s : ReadState σ) (code : ReplyType)
    (create : Option (RedisReadTask → Option RedisReadTask → σ → Option Obj × σ)) :
    Option Obj × ReadState σ :=
  match create with
  | none => (some code.code, s)
  | some f => ((f s.cur s.parent s.store).1, { s with store := (f s.cur s.parent s.store).2 })

def makeString (fn : RedisReplyObjectFunctions σ) (s : ReadState σ) (code : ReplyType)
    (str : List UInt8) : Option Obj × ReadState σ :=
  s.makeObject code (fn.createString.map fun f t p ↦ f t p str)

def makeInteger (fn : RedisReplyObjectFunctions σ) (s : ReadState σ) (value : ℤ) :
    Option Obj × ReadState σ :=
  s.makeObject .integer (fn.createInteger.map fun f t p ↦ f t p value)

/-- The count is passed as an `int`. -/
def makeArray (fn : RedisReplyObjectFunctions σ) (s : ReadState σ) (elements : ℤ) :
    Option Obj × ReadState σ :=
  s.makeObject .array (fn.createArray.map fun f t p ↦ f t p (wrap32 elements))

def makeNil (fn : RedisReplyObjectFunctions σ) (s : ReadState σ) : Option Obj × ReadState σ :=
  s.makeObject .nil fn.createNil

/-- The part of `__redisReaderSetError` outside the buffer. -/
def setError (fn : RedisReplyObjectFunctions σ) (s : ReadState σ) (type : RedisErr)
    (str : String) : ReadState σ :=
  let s :=
    match s.reply, fn.freeObject with
    | some obj, some free => { s with store := free obj s.store, reply := none }
    | _, _ => s
  { s with ridx := -1, err := some type, errstr := str }

end ReadState

/-! ## Error texts -/

def hexDigit (n : ℕ) : Char :=
  if n < 10 then Char.ofNat (48 + n) else Char.ofNat (87 + n)

/-- `chrtos`: a byte as it is quoted in an error text. -/
def chrtos (byte : UInt8) : String :=
  if byte = 92 ∨ byte = 34 then String.ofList ['"', '\\', Char.ofNat byte.toNat, '"']
  else if byte = 10 then "\"\\n\""
  else if byte = 13 then "\"\\r\""
  else if byte = 9 then "\"\\t\""
  else if byte = 7 then "\"\\a\""
  else if byte = 8 then "\"\\b\""
  else if 32 ≤ byte ∧ byte < 127 then String.ofList ['"', Char.ofNat byte.toNat, '"']
  else String.ofList
    ['"', '\\', 'x', hexDigit (byte.toNat / 16), hexDigit (byte.toNat % 16), '"']

def protocolByteError (byte : UInt8) : String :=
  "Protocol error, got " ++ chrtos byte ++ " as reply type byte"

def depthError : String := "No support for nested multi bulk replies with depth > 7"

def oomError : String := "Out of memory"

namespace RedisReader

/-! ## The buffer -/

/-- The bytes from the cursor to the end of the buffer. -/
def unread (r : RedisReader σ) : List UInt8 :=
  (((r.buf.map Sds.bytes).getD []).take r.len).drop r.pos

/-- `__redisReaderSetError`: free what was built, drop the input, empty the
stack. -/
def setError (r : RedisReader σ) (type : RedisErr) (str : String) : RedisReader σ :=
  { r with
    toReadState := r.toReadState.setError r.fn type str
    buf := none
    pos := if r.buf.isSome then 0 else r.pos
    len := if r.buf.isSome then 0 else r.len }

def setErrorProtocolByte (r : RedisReader σ) (byte : UInt8) : RedisReader σ :=
  r.setError .protocol (protocolByteError byte)

def setErrorOOM (r : RedisReader σ) : RedisReader σ := r.setError .oom oomError

/-- The pointer to `bytes` bytes at the cursor, which moves past them. -/
def readBytes (r : RedisReader σ) (bytes : ℕ) : Option (List UInt8) × RedisReader σ :=
  if bytes ≤ r.len - r.pos then (some r.unread, { r with pos := r.pos + bytes })
  else (none, r)

/-- The pointer to a line and its length; the cursor moves past its `\r\n`. -/
def readLine (r : RedisReader σ) : Option (List UInt8 × ℕ) × RedisReader σ :=
  match seekNewline r.unread with
  | some len => (some (r.unread, len), { r with pos := r.pos + len + 2 })
  | none => (none, r)

/-! ## Processing one item -/

/-- What is done with the result of a create function: `next` continues the
stack once the object is there. -/
def withObject (r : RedisReader σ) (made : Option Obj × ReadState σ)
    (next : Obj → ReadState σ → ReadState σ) : Status × RedisReader σ :=
  match made.1 with
  | none => (.err, setErrorOOM { r with toReadState := made.2 })
  | some obj => (.ok, { r with toReadState := next obj made.2 })

def processLineItem (r : RedisReader σ) : Status × RedisReader σ :=
  match r.readLine with
  | (none, r) => (.err, r)
  | (some (p, len), r) =>
      let made :=
        if r.cur.type = some .integer then r.makeInteger r.fn (readLongLong p)
        else r.makeString r.fn (r.cur.type.getD .nil) (p.take len)
      r.withObject made fun obj s ↦ (s.setRoot obj).moveToNextTask

def processBulkItem (r : RedisReader σ) : Status × RedisReader σ :=
  let p := r.unread
  match seekNewline p with
  | none => (.err, r)
  | some n =>
      let len := readLongLong p
      if len < 0 then
        -- The nil object can always be created.
        { r with pos := r.pos + (n + 2) }.withObject (r.makeNil r.fn) fun obj s ↦
          (s.setRoot obj).moveToNextTask
      else
        let bytelen := n + 2 + len.toNat + 2
        if r.pos + bytelen ≤ r.len then
          { r with pos := r.pos + bytelen }.withObject
            (r.makeString r.fn .string ((p.drop (n + 2)).take len.toNat)) fun obj s ↦
              (s.setRoot obj).moveToNextTask
        else (.err, r)

def processMultiBulkItem (r : RedisReader σ) : Status × RedisReader σ :=
  -- Nested multi bulks with depth > 7.
  if r.ridx = 8 then (.err, r.setError .protocol depthError)
  else
    match r.readLine with
    | (none, r) => (.err, r)
    | (some (p, _), r) =>
        let elements := readLongLong p
        let root := r.ridx = 0
        let setRoot (obj : Obj) (s : ReadState σ) : ReadState σ :=
          if root then { s with reply := some obj } else s
        if elements = -1 then
          r.withObject (r.makeNil r.fn) fun obj s ↦ setRoot obj s.moveToNextTask
        else
          r.withObject (r.makeArray r.fn elements) fun obj s ↦
            setRoot obj (if 0 < elements then s.pushTask elements obj else s.moveToNextTask)

/-- The type that a type byte announces. -/
def typeOfByte (byte : UInt8) : Option ReplyType :=
  if byte = 45 then some .error
  else if byte = 43 then some .status
  else if byte = 58 then some .integer
  else if byte = 36 then some .string
  else if byte = 42 then some .array
  else none

/-- Process an item whose type is known. -/
def processTyped (r : RedisReader σ) : Status × RedisReader σ :=
  match r.cur.type with
  | some .error | some .status | some .integer => r.processLineItem
  | some .string => r.processBulkItem
  | some .array => r.processMultiBulkItem
  | _ => (.err, r)

def processItem (r : RedisReader σ) : Status × RedisReader σ :=
  if r.cur.type = none then
    match r.readBytes 1 with
    | (some (byte :: _), r) =>
        match typeOfByte byte with
        | some type =>
            { r with toReadState := r.setCur { r.cur with type := some type } }.processTyped
        | none => (.err, r.setErrorProtocolByte byte)
    | (_, r) => (.err, r)
  else r.processTyped

/-! ## The public functions -/

/-- `REDIS_READER_MAX_BUF`. -/
def maxBuf : ℕ := 1024 * 16

/-- `redisReaderCreateWithFunctions`. -/
def create (fn : RedisReplyObjectFunctions σ) (store : σ) : RedisReader σ where
  err := none
  errstr := ""
  rstack := fun _ ↦ ⟨none, 0, 0, none, none⟩
  ridx := -1
  reply := none
  store := store
  buf := some sdsempty
  pos := 0
  len := 0
  maxbuf := maxBuf
  fn := fn

/-- `redisReaderFeed`. -/
def feed (r : RedisReader σ) (chunk : List UInt8) : Status × RedisReader σ :=
  if r.err.isSome then (.err, r)
  else if 1 ≤ chunk.length then
    let buf := r.buf.getD sdsempty
    -- Destroy the internal buffer when it is empty and quite large.
    let r :=
      if r.len = 0 ∧ r.maxbuf ≠ 0 ∧ r.maxbuf < sdsavail buf then
        { r with buf := some sdsempty, pos := 0 }
      else r
    let newbuf := sdscatlen (r.buf.getD sdsempty) chunk
    (.ok, { r with buf := some newbuf, len := sdslen newbuf })
  else (.ok, r)

/-- `while (r->ridx >= 0) if (processItem(r) != REDIS_OK) break;`. -/
def processItems : ℕ → RedisReader σ → RedisReader σ
  | 0, r => r
  | fuel + 1, r =>
      if 0 ≤ r.ridx then
        match r.processItem with
        | (.ok, r') => processItems fuel r'
        | (.err, r') => r'
      else r

/-- Discard the consumed part of the buffer once it is at least 1k. -/
def discard (r : RedisReader σ) : RedisReader σ :=
  if 1024 ≤ r.pos then
    let buf := sdsrange (r.buf.getD sdsempty) r.pos (-1)
    { r with buf := some buf, pos := 0, len := sdslen buf }
  else r

/-- Set the first item to process when the stack is empty. -/
def started (r : RedisReader σ) : RedisReader σ := { r with toReadState := r.start }

/-- `redisReaderGetReply`: the status, the reply when there is one, and the
reader.  Each item read consumes a byte, which bounds the loop. -/
def getReply (r : RedisReader σ) : Status × Option Obj × RedisReader σ :=
  if r.err.isSome then (.err, none, r)
  else if r.len = 0 then (.ok, none, r)
  else
    let r := r.started
    let r := r.processItems (r.unread.length + 1)
    if r.err.isSome then (.err, none, r)
    else
      let r := r.discard
      if r.ridx = -1 then (.ok, r.reply, { r with reply := none })
      else (.ok, none, r)

end RedisReader

end MuxHiredis
