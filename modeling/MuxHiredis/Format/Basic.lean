import MuxHiredis.Sds
import MuxHiredis.Reader.Encoding

/-!
# Formatting commands

`redisvFormatCommand`, `redisFormatSdsCommandArgv` and `redisFormatCommandArgv`
of `hiredis.c`, and `sdscatfmt` of `sds.c`.  Each adds up the length of the
command first and writes it afterwards.  `int` arithmetic wraps around; a
pointer into a string is the list of the bytes from it on, with the terminator.
Allocations of dynamic strings succeed, those of the command itself are up to
`malloc`.
-/

namespace MuxHiredis

namespace Format

/-- What a call must not do: read behind a string, write behind the bytes it
allocated, fail an assertion, or take an argument that is not there. -/
inductive Fault where
  | read | write | assertion | argument
  deriving DecidableEq, Repr

/-- How a call ends: with a command and the length it returns, or with a
negative code. -/
inductive Result where
  | cmd (len : ℤ) (bytes : List UInt8)
  | err (code : ℤ)
  | fault (f : Fault)
  deriving DecidableEq, Repr

/-- An argument of a variadic call.  A pointer stands for the bytes from it on,
a double for its bits. -/
inductive VaArg where
  | ptr (mem : List UInt8)
  | sds (s : Sds)
  | size (n : ℕ)
  | int (value : ℤ)
  | long (value : ℤ)
  | longLong (value : ℤ)
  | double (bits : UInt64)
  deriving DecidableEq

/-- The bytes of a C string. -/
def strBytes (mem : List UInt8) : List UInt8 := mem.takeWhile (· ≠ 0)

/-! ## Lengths -/

/-- The loop of `countDigits`, which takes four digits at a time. -/
def countDigitsFrom : ℕ → ℕ → ℕ → ℕ
  | 0, result, _ => result
  | fuel + 1, result, v =>
      if v < 10 then result
      else if v < 100 then result + 1
      else if v < 1000 then result + 2
      else if v < 10000 then result + 3
      else countDigitsFrom fuel (result + 4) (v / 10000)

def countDigits (v : ℕ) : ℕ := countDigitsFrom (v + 1) 1 v

/-- A `size_t`. -/
def bulklen (len : ℕ) : ℕ := (1 + countDigits len + 2 + len + 2) % 2 ^ 64

/-- `totlen += bulklen(len)` for an `int`. -/
def addBulk (totlen : ℤ) (arg : List UInt8) : ℤ := wrap32 (totlen + bulklen arg.length)

/-- `1+countDigits(argc)+2`. -/
def headerLen (argc : ℕ) : ℕ := 1 + countDigits argc + 2

/-! ## Writing the command -/

/-- The allocated command: its size, what was written, and `pos`. -/
structure Writer where
  size : ℕ
  bytes : List UInt8
  pos : ℤ

/-- Write `s` at `cmd+pos`, with `extra` bytes after it that the next write
replaces. -/
def Writer.put (w : Writer) (s : List UInt8) (extra : ℕ) : Except Fault Writer :=
  if w.pos = w.bytes.length ∧ w.bytes.length + s.length + extra ≤ w.size then
    .ok { w with bytes := w.bytes ++ s, pos := wrap32 (w.pos + s.length) }
  else .error .write

/-- `pos += sprintf(cmd+pos, …)`. -/
def Writer.sprintf (w : Writer) (s : List UInt8) : Except Fault Writer := w.put s 1

/-- `memcpy(cmd+pos, …)`, and `pos` moves on. -/
def Writer.memcpy (w : Writer) (s : List UInt8) : Except Fault Writer := w.put s 0

def writeBulk (w : Writer) (arg : List UInt8) : Except Fault Writer := do
  let w ← w.sprintf (36 :: (decimal arg.length ++ crlf))
  let w ← w.memcpy arg
  w.memcpy crlf

def writeAll (totlen : ℤ) (argv : List (List UInt8)) (w : Writer) : Except Fault Writer := do
  let w ← w.sprintf (42 :: (signedDecimal (wrap32 argv.length) ++ crlf))
  let w ← argv.foldlM writeBulk w
  if w.pos = totlen then w.put [] 1 else .error .assertion

/-- "Build the command at protocol level", in `totlen+1` bytes. -/
def writeCommand (malloc : ℕ → Bool) (totlen : ℤ) (argv : List (List UInt8)) : Result :=
  let size := (wrap32 (totlen + 1) % 2 ^ 64).toNat
  if malloc size then
    match writeAll totlen argv ⟨size, [], 0⟩ with
    | .ok w => .cmd totlen w.bytes
    | .error f => .fault f
  else .err (-1)

/-- The bytes of the arguments: `argvlen[j]` of them, or up to the terminator. -/
def arguments (argv : List (List UInt8)) : Option (List ℕ) → List (List UInt8)
  | some argvlen => List.zipWith (fun arg len ↦ arg.take len) argv argvlen
  | none => argv.map strBytes

def redisFormatCommandArgv (malloc : ℕ → Bool) (argv : List (List UInt8))
    (argvlen : Option (List ℕ)) : Result :=
  let args := arguments argv argvlen
  writeCommand malloc (args.foldl addBulk (headerLen args.length)) args

/-! ## Into a dynamic string -/

/-- One round of `sdscatfmt` that appends `t`. -/
def sdscatfmtPut (s : Sds) (t : List UInt8) : Sds :=
  sdscatlen (if sdsavail s = 0 then sdsMakeRoomFor s 1 else s) t

/-- `%u` takes an `unsigned int`, which of a `size_t` is the lower half. -/
def sdscatfmt (s : Sds) : List UInt8 → List VaArg → Except Fault Sds
  | [], _ => .ok s
  | [37], _ => .error .read
  | 37 :: next :: fmt, ap =>
      if next = 115 then
        match ap with
        | .ptr mem :: ap => sdscatfmt (sdscatfmtPut s (strBytes mem)) fmt ap
        | _ => .error .argument
      else if next = 83 then
        match ap with
        | .sds t :: ap => sdscatfmt (sdscatfmtPut s t.bytes) fmt ap
        | _ => .error .argument
      else if next = 105 then
        match ap with
        | .int value :: ap => sdscatfmt (sdscatfmtPut s (signedDecimal (wrap32 value))) fmt ap
        | _ => .error .argument
      else if next = 73 then
        match ap with
        | .longLong value :: ap =>
            sdscatfmt (sdscatfmtPut s (signedDecimal (wrap64 value))) fmt ap
        | _ => .error .argument
      else if next = 117 then
        match ap with
        | .size n :: ap => sdscatfmt (sdscatfmtPut s (decimal (n % 2 ^ 32))) fmt ap
        | .int value :: ap =>
            sdscatfmt (sdscatfmtPut s (decimal (value % 2 ^ 32).toNat)) fmt ap
        | _ => .error .argument
      else if next = 85 then
        match ap with
        | .size n :: ap => sdscatfmt (sdscatfmtPut s (decimal (n % 2 ^ 64))) fmt ap
        | .longLong value :: ap =>
            sdscatfmt (sdscatfmtPut s (decimal (value % 2 ^ 64).toNat)) fmt ap
        | _ => .error .argument
      else sdscatfmt (sdscatfmtPut s [next]) fmt ap
  | c :: fmt, ap => sdscatfmt (sdscatfmtPut s [c]) fmt ap

def sdscatBulk (cmd : Sds) (arg : List UInt8) : Except Fault Sds := do
  let cmd ← sdscatfmt cmd ([36, 37, 117] ++ crlf) [.size arg.length]
  .ok (sdscatlen (sdscatlen cmd arg) crlf)

def sdscatAll (totlen : ℕ) (args : List (List UInt8)) (cmd : Sds) : Except Fault Sds := do
  let cmd ← sdscatfmt cmd ([42, 37, 105] ++ crlf) [.int args.length]
  let cmd ← args.foldlM sdscatBulk cmd
  if sdslen cmd = totlen then .ok cmd else .error .assertion

def redisFormatSdsCommandArgv (argv : List (List UInt8)) (argvlen : Option (List ℕ)) : Result :=
  let args := arguments argv argvlen
  let totlen := args.foldl (fun totlen arg ↦ (totlen + bulklen arg.length) % 2 ^ 64)
    (headerLen args.length)
  match sdscatAll totlen args (sdsMakeRoomFor sdsempty totlen) with
  | .ok cmd => .cmd (wrap32 totlen) cmd.bytes
  | .error f => .fault f

/-! ## From a format string -/

/-- What ends the scan of the format early: `goto format_err`, or a fault. -/
inductive Stop where
  | format
  | fault (f : Fault)
  deriving DecidableEq, Repr

/-- The variables of the scan.  `argc` is the length of `curargv`. -/
structure Scan where
  c : List UInt8
  ap : List VaArg
  curarg : Sds
  touched : Bool
  curargv : List Sds
  totlen : ℤ

/-- `curargv[argc++] = curarg`. -/
def Scan.push (s : Scan) : Scan :=
  { s with
    curargv := s.curargv ++ [s.curarg]
    totlen := addBulk s.totlen s.curarg.bytes
    curarg := sdsempty
    touched := false }

/-- `diouxX`. -/
def intfmts : List UInt8 := [100, 105, 111, 117, 120, 88]

/-- `eEfFgGaA`. -/
def doublefmts : List UInt8 := [101, 69, 102, 70, 103, 71, 97, 65]

/-- `#0-+ `. -/
def flags : List UInt8 := [35, 48, 45, 43, 32]

def isdigit (b : UInt8) : Bool := 48 ≤ b && b < 58

/-- `strchr(set, b) != NULL`, which finds the terminator of `set` as well. -/
def strchrSet (set : List UInt8) (b : UInt8) : Bool := b == 0 || set.contains b

/-- The type that `va_arg` is called with. -/
inductive Num where
  | int | long | longLong | double
  deriving DecidableEq, Repr

/-- `_p` after flags, field width and precision. -/
def skipSpec (c : List UInt8) : List UInt8 :=
  let p := ((c.drop 1).dropWhile flags.contains).dropWhile isdigit
  match p with
  | 46 :: p => p.dropWhile isdigit
  | p => p

/-- The letter of an integer conversion behind a size modifier. -/
def modified (p : List UInt8) (num : Num) : Except Stop (List UInt8 × Num) :=
  match p with
  | [] => .error (.fault .read)
  | b :: _ => if b ≠ 0 ∧ strchrSet intfmts b then .ok (p, num) else .error .format

/-- Where the letter of the conversion stands, and the type of its argument. -/
def conversion (p : List UInt8) : Except Stop (List UInt8 × Num) :=
  match p with
  | [] => .error (.fault .read)
  | b :: p' =>
      if strchrSet intfmts b then .ok (p, .int)
      else if strchrSet doublefmts b then .ok (p, .double)
      else if b = 104 then
        if p'.head? = some 104 then modified (p'.drop 1) .int else modified p' .int
      else if b = 108 then
        if p'.head? = some 108 then modified (p'.drop 1) .longLong else modified p' .long
      else .error .format

def vaArg (num : Num) (ap : List VaArg) : Except Stop (List VaArg) :=
  match num, ap with
  | .int, .int _ :: ap => .ok ap
  | .long, .long _ :: ap => .ok ap
  | .longLong, .longLong _ :: ap => .ok ap
  | .double, .double _ :: ap => .ok ap
  | _, _ => .error (.fault .argument)

/-- "Try to detect printf format".  `vsnprintf` is given the conversion alone,
and the arguments as they were before; `c` is left two bytes before the end of
the conversion. -/
def printfSpec (vsnprintf : List UInt8 → List VaArg → List UInt8) (s : Scan) :
    Except Stop Scan := do
  let (p, num) ← conversion (skipSpec s.c)
  let ap ← vaArg num s.ap
  let l := s.c.length - p.length + 1
  -- `sizeof(_format)-2`; a longer conversion is left to the scan.
  if l < 14 then
    .ok { s with
      c := s.c.drop (l - 2)
      ap := ap
      curarg := sdscatlen s.curarg (vsnprintf (strBytes (s.c.take l)) s.ap) }
  else .ok { s with ap := ap }

/-- The switch on `c[1]`. -/
def interpolate (vsnprintf : List UInt8 → List VaArg → List UInt8) (s : Scan) (spec : UInt8) :
    Except Stop Scan :=
  if spec = 115 then
    match s.ap with
    | .ptr mem :: ap =>
        .ok { s with
          ap := ap
          curarg :=
            if 0 < (strBytes mem).length then sdscatlen s.curarg (strBytes mem) else s.curarg }
    | _ => .error (.fault .argument)
  else if spec = 98 then
    match s.ap with
    | .ptr mem :: .size size :: ap =>
        if size ≤ mem.length then
          .ok { s with
            ap := ap
            curarg := if 0 < size then sdscatlen s.curarg (mem.take size) else s.curarg }
        else .error (.fault .read)
    | _ => .error (.fault .argument)
  else if spec = 37 then .ok { s with curarg := sdscatlen s.curarg [37] }
  else printfSpec vsnprintf s

/-- One round of the scan. -/
def scanStep (vsnprintf : List UInt8 → List VaArg → List UInt8) (s : Scan) : Except Stop Scan :=
  match s.c with
  | [] => .error (.fault .read)
  | b :: c =>
      if b ≠ 37 ∨ c.head? = some 0 then
        if b = 32 then
          if s.touched then .ok { s.push with c := c } else .ok { s with c := c }
        else .ok { s with c := c, curarg := sdscatlen s.curarg [b], touched := true }
      else
        match c with
        | [] => .error (.fault .read)
        | spec :: _ => do
            let s ← interpolate vsnprintf s spec
            .ok { s with c := s.c.drop 2, touched := true }

/-- Each round moves `c` on, which bounds the loop. -/
def scanLoop (vsnprintf : List UInt8 → List VaArg → List UInt8) : ℕ → Scan → Except Stop Scan
  | 0, s => .ok s
  | fuel + 1, s =>
      match s.c with
      | [] => .error (.fault .read)
      | b :: _ =>
          if b = 0 then .ok s
          else do
            let s ← scanStep vsnprintf s
            scanLoop vsnprintf fuel s

def redisvFormatCommand (malloc : ℕ → Bool)
    (vsnprintf : List UInt8 → List VaArg → List UInt8) (format : List UInt8)
    (ap : List VaArg) : Result :=
  match scanLoop vsnprintf (format.length + 2) ⟨format ++ [0], ap, sdsempty, false, [], 0⟩ with
  | .error .format => .err (-2)
  | .error (.fault f) => .fault f
  | .ok s =>
      let s := if s.touched then s.push else s
      writeCommand malloc (wrap32 (s.totlen + headerLen s.curargv.length))
        (s.curargv.map Sds.bytes)

/-- Every negative result is turned into `-1`. -/
def redisFormatCommand (malloc : ℕ → Bool)
    (vsnprintf : List UInt8 → List VaArg → List UInt8) (format : List UInt8)
    (ap : List VaArg) : Result :=
  match redisvFormatCommand malloc vsnprintf format ap with
  | .err _ => .err (-1)
  | result => result

end Format

end MuxHiredis
