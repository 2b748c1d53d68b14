import MuxHiredis.Lib.Layout
import MuxHiredis.Format.Basic

/-!
# Failed commands on a shared connection

`xRedisvCommand` and `xRedisCommandArgv` report a command that could not be
formatted with `__redisSetError`, which they hand their `xRedisContext` as if it
were a `redisContext`.  Both are laid out for 64-bit pointers.
-/

namespace MuxHiredis

open Format (Fault Result VaArg)
open Layout (Field)

/-! ## The two structures -/

def intField : Field := ⟨4, 4⟩

def pointerField : Field := ⟨8, 8⟩

/-- The `redisContext` from `err` to `unix_sock`. -/
def redisContextFields : List Field :=
  [intField, ⟨128, 1⟩, intField, intField, pointerField, pointerField, intField, pointerField,
    ⟨24, 8⟩, ⟨8, 8⟩]

def errOffset : ℕ := (Layout.offsets redisContextFields).getD 0 0

def errstrOffset : ℕ := (Layout.offsets redisContextFields).getD 1 0

/-- `sizeof(c->errstr)`. -/
def errstrSize : ℕ := 128

inductive XField where
  | ctx | ip | port | status | waitTimeReconn | remainWaitReconn | taskFd | mutex | cond
  deriving DecidableEq, Repr

namespace XField

def layout : XField → Field
  | ctx | ip => pointerField
  | port | status | waitTimeReconn | remainWaitReconn => intField
  | taskFd => ⟨8, 4⟩
  | mutex => ⟨40, 8⟩
  | cond => ⟨48, 8⟩

/-- As they are declared. -/
def all : List XField :=
  [ctx, ip, port, status, waitTimeReconn, remainWaitReconn, taskFd, mutex, cond]

def offset (f : XField) : ℕ :=
  ((all.zip (Layout.offsets (all.map layout))).lookup f).getD 0

end XField

/-- An `xRedisContext` in memory, with what lies behind it. -/
structure XRedisContext where
  mem : List UInt8
  fits : Layout.sizeof (XField.all.map XField.layout) ≤ mem.length

def XRedisContext.field (c : XRedisContext) (f : XField) : List UInt8 :=
  Layout.read c.mem f.offset f.layout.size

/-- The number that a field holds, lowest byte first. -/
def littleEndian (bytes : List UInt8) : ℕ := bytes.foldr (fun b n ↦ b.toNat + 256 * n) 0

/-! ## Setting an error -/

def RedisErr.code : RedisErr → ℕ
  | io => 1
  | other => 2
  | eof => 3
  | protocol => 4
  | oom => 5

/-- The bytes of an `int` that is not negative. -/
def intBytes (n : ℕ) : List UInt8 :=
  [UInt8.ofNat n, UInt8.ofNat (n / 2 ^ 8), UInt8.ofNat (n / 2 ^ 16), UInt8.ofNat (n / 2 ^ 24)]

def stringBytes (str : String) : List UInt8 := str.toList.map fun c ↦ UInt8.ofNat c.toNat

/-- `__redisSetError` with a description, on the memory from `c` on. -/
def redisSetError (mem : List UInt8) (type : RedisErr) (str : List UInt8) : List UInt8 :=
  let len := if str.length < errstrSize - 1 then str.length else errstrSize - 1
  let mem := Layout.write mem errOffset (intBytes type.code)
  let mem := Layout.write mem errstrOffset (str.take len)
  Layout.write mem (errstrOffset + len) [0]

theorem le_length_redisSetError (mem : List UInt8) (type : RedisErr) (str : List UInt8) :
    mem.length ≤ (redisSetError mem type str).length :=
  ((Layout.le_length_write _ _ _).trans (Layout.le_length_write _ _ _)).trans
    (Layout.le_length_write _ _ _)

/-- `__redisSetError(c,…)`, where `c` is an `xRedisContext`. -/
def XRedisContext.setError (c : XRedisContext) (type : RedisErr) (str : List UInt8) :
    XRedisContext where
  mem := redisSetError c.mem type str
  fits := c.fits.trans (le_length_redisSetError c.mem type str)

/-! ## The calls -/

/-- What formatting depends on: whether an allocation before that of the command
fails, whether that one is granted, and what `vsnprintf` gives. -/
structure Formatting where
  oom : Bool
  malloc : ℕ → Bool
  vsnprintf : List UInt8 → List VaArg → List UInt8

def Formatting.redisvFormatCommand (env : Formatting) (format : List UInt8) (ap : List VaArg) :
    Result :=
  if env.oom then .err (-1) else Format.redisvFormatCommand env.malloc env.vsnprintf format ap

def Formatting.redisFormatSdsCommandArgv (env : Formatting) (argv : List (List UInt8))
    (argvlen : Option (List ℕ)) : Result :=
  if env.oom then .err (-1) else Format.redisFormatSdsCommandArgv argv argvlen

section Calls

variable {ρ : Type} (issue : XRedisContext → ℤ → List UInt8 → Option ρ × XRedisContext)
  (env : Formatting)

/-- `issue` stands for `__xRedisCommand`. -/
def xRedisvCommand (c : XRedisContext) (format : List UInt8) (ap : List VaArg) :
    Except Fault (Option ρ × XRedisContext) :=
  match env.redisvFormatCommand format ap with
  | .err code =>
      if code = -1 then .ok (none, c.setError .oom (stringBytes "Out of memory"))
      else if code = -2 then .ok (none, c.setError .other (stringBytes "Invalid format string"))
      else .error .read
  | .cmd len cmd => .ok (issue c len cmd)
  | .fault f => .error f

def xRedisCommandArgv (c : XRedisContext) (argv : List (List UInt8))
    (argvlen : Option (List ℕ)) : Except Fault (Option ρ × XRedisContext) :=
  match env.redisFormatSdsCommandArgv argv argvlen with
  | .err code =>
      if code = -1 then .ok (none, c.setError .oom (stringBytes "Out of memory"))
      else .error .read
  | .cmd len cmd => .ok (issue c len cmd)
  | .fault f => .error f

end Calls

/-- A command on a shared connection, with its arguments. -/
inductive SharedCall where
  | command (format : List UInt8) (ap : List VaArg)
  | commandArgv (argv : List (List UInt8)) (argvlen : Option (List ℕ))

namespace SharedCall

def formatted (env : Formatting) : SharedCall → Result
  | command format ap => env.redisvFormatCommand format ap
  | commandArgv argv argvlen => env.redisFormatSdsCommandArgv argv argvlen

def run {ρ : Type} (issue : XRedisContext → ℤ → List UInt8 → Option ρ × XRedisContext)
    (env : Formatting) (c : XRedisContext) : SharedCall → Except Fault (Option ρ × XRedisContext)
  | command format ap => xRedisvCommand issue env c format ap
  | commandArgv argv argvlen => xRedisCommandArgv issue env c argv argvlen

end SharedCall

/-! ## What an error leaves in the context -/

/-- `err`, and the description with its terminator. -/
def errorBytes (type : RedisErr) (str : List UInt8) : List UInt8 :=
  intBytes type.code ++ (str ++ [0])

theorem errorBytes_length (type : RedisErr) (str : List UInt8) :
    (errorBytes type str).length = str.length + 5 := by
  simp only [errorBytes, intBytes, List.length_append, List.length_cons, List.length_nil]
  omega

theorem sizeof_eq : Layout.sizeof (XField.all.map XField.layout) = 128 := by decide

theorem redisSetError_eq {mem : List UInt8} (type : RedisErr) {str : List UInt8}
    (hstr : str.length < 124) (hmem : 128 ≤ mem.length) :
    redisSetError mem type str = Layout.write mem 0 (errorBytes type str) := by
  have hlen : (if str.length < errstrSize - 1 then str.length else errstrSize - 1) =
      str.length := if_pos (hstr.trans (by decide))
  have herr : errOffset = 0 := by decide
  have herrstr : errstrOffset = 0 + (intBytes type.code).length := by
    cases type <;> decide
  have hend : errstrOffset + str.length = 0 + (intBytes type.code ++ str).length := by
    rw [herrstr, List.length_append]
    omega
  unfold redisSetError
  simp only [hlen, List.take_length]
  rw [hend, herrstr, herr, Layout.write_write, Layout.write_write, errorBytes,
    List.append_assoc]
  · rw [← hend, herrstr]
    simp only [intBytes, List.length_cons, List.length_nil]
    omega
  · simp only [intBytes, List.length_cons, List.length_nil]
    omega

namespace XRedisContext

variable {c d : XRedisContext}

theorem flatMap_field (c : XRedisContext) :
    XField.all.flatMap c.field = Layout.read c.mem 0 128 := by
  have hoffset : XField.all.map XField.offset = [0, 8, 16, 20, 24, 28, 32, 40, 80] := by decide
  simp only [XField.all, List.map_cons, List.map_nil, List.cons.injEq, and_true] at hoffset
  obtain ⟨h1, h2, h3, h4, h5, h6, h7, h8, h9⟩ := hoffset
  simp only [XField.all, List.flatMap_cons, List.flatMap_nil, List.append_nil, field, h1, h2, h3,
    h4, h5, h6, h7, h8, h9, XField.layout, pointerField, intField]
  rw [Layout.read_append c.mem (rfl : 80 = 40 + 40) (rfl : 88 = 40 + 48),
    Layout.read_append c.mem (rfl : 40 = 32 + 8) (rfl : 96 = 8 + 88),
    Layout.read_append c.mem (rfl : 32 = 28 + 4) (rfl : 100 = 4 + 96),
    Layout.read_append c.mem (rfl : 28 = 24 + 4) (rfl : 104 = 4 + 100),
    Layout.read_append c.mem (rfl : 24 = 20 + 4) (rfl : 108 = 4 + 104),
    Layout.read_append c.mem (rfl : 20 = 16 + 4) (rfl : 112 = 4 + 108),
    Layout.read_append c.mem (rfl : 16 = 8 + 8) (rfl : 120 = 8 + 112),
    Layout.read_append c.mem (rfl : 8 = 0 + 8) (rfl : 128 = 8 + 120)]

theorem read_eq (h : ∀ f, c.field f = d.field f) {size : ℕ} (hsize : size ≤ 128) :
    Layout.read c.mem 0 size = Layout.read d.mem 0 size := by
  have hall : Layout.read c.mem 0 128 = Layout.read d.mem 0 128 := by
    rw [← flatMap_field, ← flatMap_field]
    exact List.flatMap_congr fun f _ ↦ h f
  have htake := congrArg (List.take size) hall
  simpa only [Layout.read, List.take_take, Nat.min_eq_left hsize] using htake

/-- An error of any length that fits is set without a change only if it stands
there already. -/
theorem setError_unchanged_iff (c : XRedisContext) (type : RedisErr) {str : List UInt8}
    (hstr : str.length < 124) :
    (∀ f, (c.setError type str).field f = c.field f) ↔
      Layout.read c.mem 0 (errorBytes type str).length = errorBytes type str := by
  have hmem : 128 ≤ c.mem.length := sizeof_eq ▸ c.fits
  have hlen := errorBytes_length type str
  have hset : (c.setError type str).mem = Layout.write c.mem 0 (errorBytes type str) :=
    redisSetError_eq type hstr hmem
  constructor
  · intro h
    rw [← read_eq h (by omega), hset, Layout.read_write_self (by omega)]
  · intro h f
    rw [field, hset, (Layout.write_eq_self_iff (by omega)).mpr h, field]

theorem setError_behind (c : XRedisContext) (type : RedisErr) {str : List UInt8}
    (hstr : str.length < 124) {f : XField} (hf : (errorBytes type str).length ≤ f.offset) :
    (c.setError type str).field f = c.field f := by
  have hmem : 128 ≤ c.mem.length := sizeof_eq ▸ c.fits
  have hlen := errorBytes_length type str
  have hset : (c.setError type str).mem = Layout.write c.mem 0 (errorBytes type str) :=
    redisSetError_eq type hstr hmem
  rw [field, hset, Layout.read_write_of_le (by omega) (by omega), field]

end XRedisContext

/-! ## Commands that could not be formatted -/

theorem writeCommand_err {malloc : ℕ → Bool} {totlen code : ℤ} {argv : List (List UInt8)}
    (h : Format.writeCommand malloc totlen argv = .err code) : code = -1 := by
  simp only [Format.writeCommand] at h
  split at h
  · split at h <;> cases h
  · exact (Result.err.inj h).symm

theorem redisvFormatCommand_err {malloc : ℕ → Bool}
    {vsnprintf : List UInt8 → List VaArg → List UInt8} {format : List UInt8} {ap : List VaArg}
    {code : ℤ} (h : Format.redisvFormatCommand malloc vsnprintf format ap = .err code) :
    code = -1 ∨ code = -2 := by
  unfold Format.redisvFormatCommand at h
  split at h
  · exact .inr (Result.err.inj h).symm
  · cases h
  · exact .inl (writeCommand_err h)

theorem redisFormatSdsCommandArgv_ne_err (argv : List (List UInt8)) (argvlen : Option (List ℕ))
    (code : ℤ) : Format.redisFormatSdsCommandArgv argv argvlen ≠ .err code := by
  intro h
  simp only [Format.redisFormatSdsCommandArgv] at h
  split at h <;> cases h

/-- The error that is set for a negative length. -/
def failure (code : ℤ) : RedisErr × List UInt8 :=
  if code = -1 then (.oom, stringBytes "Out of memory")
  else (.other, stringBytes "Invalid format string")

theorem failure_length (code : ℤ) : (failure code).2.length < 124 := by
  unfold failure
  split <;> decide

namespace SharedCall

variable {ρ : Type} {issue : XRedisContext → ℤ → List UInt8 → Option ρ × XRedisContext}
  {env : Formatting} {call : SharedCall} {c : XRedisContext} {code : ℤ}

theorem run_failed (issue : XRedisContext → ℤ → List UInt8 → Option ρ × XRedisContext)
    (c : XRedisContext) (hfail : call.formatted env = .err code) :
    call.run issue env c = .ok (none, c.setError (failure code).1 (failure code).2) := by
  cases call with
  | command format ap =>
      have hfail : env.redisvFormatCommand format ap = .err code := hfail
      have hcode : code = -1 ∨ code = -2 := by
        unfold Formatting.redisvFormatCommand at hfail
        split at hfail
        · exact .inl (Result.err.inj hfail).symm
        · exact redisvFormatCommand_err hfail
      simp only [run, xRedisvCommand, hfail]
      rcases hcode with rfl | rfl <;> rfl
  | commandArgv argv argvlen =>
      have hfail : env.redisFormatSdsCommandArgv argv argvlen = .err code := hfail
      have hcode : code = -1 := by
        unfold Formatting.redisFormatSdsCommandArgv at hfail
        split at hfail
        · exact (Result.err.inj hfail).symm
        · exact absurd hfail (redisFormatSdsCommandArgv_ne_err argv argvlen code)
      simp only [run, xRedisCommandArgv, hfail]
      subst hcode
      rfl

/-- The call returns `NULL`, and every field is as it was. -/
def Harmless (issue : XRedisContext → ℤ → List UInt8 → Option ρ × XRedisContext)
    (env : Formatting) (c : XRedisContext) (call : SharedCall) : Prop :=
  ∃ c', call.run issue env c = .ok (none, c') ∧ ∀ f, c'.field f = c.field f

/-- A call that fails leaves the context as it was only if this begins with the
error and its description; no context does whose `ctx` is an address. -/
theorem failed_harmless_iff (hfail : call.formatted env = .err code) :
    (call.Harmless issue env c ↔
      Layout.read c.mem 0 (errorBytes (failure code).1 (failure code).2).length =
        errorBytes (failure code).1 (failure code).2) ∧
      (littleEndian (c.field .ctx) < 2 ^ 47 → ¬call.Harmless issue env c) := by
  have hiff : call.Harmless issue env c ↔
      Layout.read c.mem 0 (errorBytes (failure code).1 (failure code).2).length =
        errorBytes (failure code).1 (failure code).2 := by
    rw [← c.setError_unchanged_iff _ (failure_length code)]
    constructor
    · rintro ⟨c', hrun, hc'⟩
      rw [run_failed issue c hfail] at hrun
      cases hrun
      exact hc'
    · intro h
      exact ⟨_, run_failed issue c hfail, h⟩
  refine ⟨hiff, fun hctx h ↦ ?_⟩
  -- Four bytes of the description are the upper half of `ctx`.
  have hfield : c.field .ctx = (errorBytes (failure code).1 (failure code).2).take 8 := by
    have hlen := errorBytes_length (failure code).1 (failure code).2
    have htake := congrArg (List.take 8) (hiff.mp h)
    have hsize : 8 ≤ (errorBytes (failure code).1 (failure code).2).length := by
      unfold failure
      split <;> decide
    rw [Layout.read, List.take_take, Nat.min_eq_left hsize] at htake
    exact htake
  have hbig : ¬littleEndian ((errorBytes (failure code).1 (failure code).2).take 8) < 2 ^ 47 := by
    unfold failure
    split <;> decide
  rw [hfield] at hctx
  exact hbig hctx

/-- Behind the description the fields are kept: the pipe, the mutex and the
condition variable are. -/
theorem failed_behind (hfail : call.formatted env = .err code) :
    ∃ c', call.run issue env c = .ok (none, c') ∧
      ∀ f ∈ [XField.remainWaitReconn, .taskFd, .mutex, .cond], c'.field f = c.field f := by
  refine ⟨_, run_failed issue c hfail, fun f hf ↦ c.setError_behind _ (failure_length code) ?_⟩
  have hshort : (errorBytes (failure code).1 (failure code).2).length ≤ 28 := by
    unfold failure
    split <;> decide
  have hoffset : 28 ≤ f.offset := by
    simp only [List.mem_cons, List.not_mem_nil, or_false] at hf
    rcases hf with rfl | rfl | rfl | rfl <;> decide
  exact hshort.trans hoffset

end SharedCall

/-- A context that is connected to port 6379, with the pipe 5 and 6. -/
def connectedContext : XRedisContext where
  mem := [0, 16, 0, 0, 0, 127, 0, 0, 0, 32, 0, 0, 0, 127, 0, 0, 235, 24, 0, 0, 2, 0, 0, 0] ++
    List.replicate 8 0 ++ [5, 0, 0, 0, 6, 0, 0, 0] ++ List.replicate 88 0
  fits := by
    rw [sizeof_eq]
    simp

theorem failed_harmless_connected :
    ¬(SharedCall.commandArgv [[80, 73, 78, 71]] none).Harmless
      (fun c _ _ ↦ (some (), c)) ⟨true, fun _ ↦ false, fun _ _ ↦ []⟩ connectedContext := by
  have hfail : (SharedCall.commandArgv [[80, 73, 78, 71]] none).formatted
      ⟨true, fun _ ↦ false, fun _ _ ↦ []⟩ = .err (-1) := rfl
  exact (SharedCall.failed_harmless_iff hfail).2 (by decide)

/-- `%y` is no conversion: `ctx`, `ip`, `port` and `status` are overwritten. -/
theorem invalid_format_overwrites :
    ∃ c', xRedisvCommand (fun c _ _ ↦ (some (), c)) ⟨false, fun _ ↦ true, fun _ _ ↦ []⟩
        connectedContext [37, 121] [] = .ok (none, c') ∧
      connectedContext.field .ctx = [0, 16, 0, 0, 0, 127, 0, 0] ∧
      c'.field .ctx = [2, 0, 0, 0, 73, 110, 118, 97] ∧
      c'.field .ip ≠ connectedContext.field .ip ∧
      c'.field .port ≠ connectedContext.field .port ∧
      c'.field .status ≠ connectedContext.field .status := by
  have hfail : (SharedCall.command [37, 121] []).formatted
      ⟨false, fun _ ↦ true, fun _ _ ↦ []⟩ = .err (-2) := rfl
  have hrun := SharedCall.run_failed (fun c _ _ ↦ (some (), c)) connectedContext hfail
  exact ⟨_, hrun, by decide, by decide, by decide, by decide, by decide⟩

end MuxHiredis
