import MuxHiredis.Format.Basic
import MuxHiredis.Async.Command

/-!
# What the formatting functions produce

The bytes of a command do not depend on which function formatted it: whenever
one of them succeeds, they are those of `MuxHiredis.redisFormatCommandArgv`, and
it succeeds when the length and its terminator fit an `int`.
-/

namespace MuxHiredis

namespace Format

theorem bind_eq_ok {ε α β : Type} {x : Except ε α} {f : α → Except ε β} {b : β}
    (h : x >>= f = .ok b) : ∃ a, x = .ok a ∧ f a = .ok b := by
  cases x with
  | error e => cases h
  | ok a => exact ⟨a, rfl, h⟩

/-! ## Lengths -/

theorem decimal_length_of_le {n : ℕ} (h : 10 ≤ n) :
    (decimal n).length = (decimal (n / 10)).length + 1 := by
  rw [decimal_of_le h, List.length_append, List.length_singleton]

theorem countDigitsFrom_eq {fuel v : ℕ} (h : v < fuel) (result : ℕ) :
    countDigitsFrom fuel (result + 1) v = result + (decimal v).length := by
  induction fuel generalizing v result with
  | zero => omega
  | succ fuel ih =>
      rw [countDigitsFrom]
      by_cases h1 : v < 10
      · rw [if_pos h1, decimal_of_lt h1, List.length_singleton]
      rw [if_neg h1, decimal_length_of_le (by omega)]
      by_cases h2 : v < 100
      · rw [if_pos h2, decimal_of_lt (by omega), List.length_singleton]
      rw [if_neg h2, decimal_length_of_le (by omega)]
      by_cases h3 : v < 1000
      · rw [if_pos h3, decimal_of_lt (by omega), List.length_singleton]
      rw [if_neg h3, decimal_length_of_le (by omega)]
      by_cases h4 : v < 10000
      · rw [if_pos h4, decimal_of_lt (by omega), List.length_singleton]
      have hdiv : v / 10 / 10 / 10 / 10 = v / 10000 := by omega
      rw [if_neg h4, decimal_length_of_le (by omega), hdiv, Nat.add_right_comm,
        ih (by omega) (result + 4)]
      omega

/-- `countDigits` counts the digits that `sprintf` writes. -/
theorem countDigits_eq (v : ℕ) : countDigits v = (decimal v).length := by
  rw [countDigits, countDigitsFrom_eq (Nat.lt_succ_self v) 0, Nat.zero_add]

theorem bulk_length (arg : List UInt8) :
    (bulk arg).length = 1 + (decimal arg.length).length + 2 + arg.length + 2 := by
  simp only [bulk, crlf, List.length_cons, List.length_append, List.length_nil]
  omega

theorem bulklen_eq {arg : List UInt8} (h : (bulk arg).length < 2 ^ 64) :
    bulklen arg.length = (bulk arg).length := by
  rw [bulk_length] at h ⊢
  rw [bulklen, countDigits_eq, Nat.mod_eq_of_lt h]

theorem headerLen_eq (argc : ℕ) :
    headerLen argc = (42 :: (decimal argc ++ crlf)).length := by
  simp only [headerLen, countDigits_eq, crlf, List.length_cons, List.length_append,
    List.length_nil]
  omega

theorem format_length (argv : List (List UInt8)) :
    (MuxHiredis.redisFormatCommandArgv argv).length =
      headerLen argv.length + (argv.flatMap bulk).length := by
  rw [MuxHiredis.redisFormatCommandArgv, List.length_append, headerLen_eq]

/-- An argument takes more bytes than it has, so arguments that were written
are neither too many nor too long. -/
theorem le_flatMap_length {f : List UInt8 → List UInt8}
    (hf : ∀ arg, arg.length < (f arg).length) (argv : List (List UInt8)) :
    argv.length ≤ (argv.flatMap f).length ∧
      ∀ arg ∈ argv, arg.length ≤ (argv.flatMap f).length := by
  induction argv with
  | nil => simp
  | cons arg argv ih =>
      have harg := hf arg
      simp only [List.flatMap_cons, List.length_append, List.length_cons]
      refine ⟨by omega, fun a ha ↦ ?_⟩
      rcases List.mem_cons.mp ha with rfl | ha
      · omega
      · exact (ih.2 a ha).trans (Nat.le_add_left _ _)

theorem lt_bulk_length (arg : List UInt8) : arg.length < (bulk arg).length := by
  rw [bulk_length]
  omega

theorem foldl_addBulk {argv : List (List UInt8)} {totlen : ℕ}
    (h : totlen + (argv.flatMap bulk).length < 2 ^ 31) :
    argv.foldl addBulk totlen = ((totlen + (argv.flatMap bulk).length : ℕ) : ℤ) := by
  induction argv generalizing totlen with
  | nil => rfl
  | cons arg argv ih =>
      simp only [List.flatMap_cons, List.length_append] at h ⊢
      have hstep : addBulk totlen arg = ((totlen + (bulk arg).length : ℕ) : ℤ) := by
        rw [addBulk, bulklen_eq (by omega), ← Nat.cast_add, wrap32_of_lt (by omega) (by omega)]
      rw [List.foldl_cons, hstep, ih (by omega), Nat.add_assoc]

theorem foldl_size {argv : List (List UInt8)} {totlen : ℕ}
    (h : totlen + (argv.flatMap bulk).length < 2 ^ 64) :
    argv.foldl (fun totlen arg ↦ (totlen + bulklen arg.length) % 2 ^ 64) totlen =
      totlen + (argv.flatMap bulk).length := by
  induction argv generalizing totlen with
  | nil => rfl
  | cons arg argv ih =>
      simp only [List.flatMap_cons, List.length_append] at h ⊢
      have hstep : (totlen + bulklen arg.length) % 2 ^ 64 = totlen + (bulk arg).length := by
        rw [bulklen_eq (by omega), Nat.mod_eq_of_lt (by omega)]
      rw [List.foldl_cons, hstep, ih (by omega), Nat.add_assoc]

/-! ## The command that was written -/

theorem put_ok {w w' : Writer} {s : List UInt8} {extra : ℕ} (h : w.put s extra = .ok w') :
    w'.bytes = w.bytes ++ s := by
  unfold Writer.put at h
  split at h
  · cases h
    rfl
  · cases h

theorem writeBulk_ok {w w' : Writer} {arg : List UInt8} (h : writeBulk w arg = .ok w') :
    w'.bytes = w.bytes ++ bulk arg := by
  obtain ⟨u, hu, h⟩ := bind_eq_ok h
  obtain ⟨v, hv, h⟩ := bind_eq_ok h
  rw [put_ok h, put_ok hv, put_ok hu, bulk]
  simp only [List.append_assoc, List.cons_append]

theorem writeBulks_ok {argv : List (List UInt8)} {w w' : Writer}
    (h : argv.foldlM writeBulk w = .ok w') : w'.bytes = w.bytes ++ argv.flatMap bulk := by
  induction argv generalizing w with
  | nil =>
      cases h
      simp
  | cons arg argv ih =>
      rw [List.foldlM_cons] at h
      obtain ⟨u, hu, h⟩ := bind_eq_ok h
      rw [ih h, writeBulk_ok hu, List.flatMap_cons, List.append_assoc]

/-- Whatever the lengths were taken for, what is written are the arguments. -/
theorem writeCommand_cmd {malloc : ℕ → Bool} {totlen len : ℤ} {argv : List (List UInt8)}
    {bytes : List UInt8} (h : writeCommand malloc totlen argv = .cmd len bytes) :
    bytes = 42 :: (signedDecimal (wrap32 argv.length) ++ crlf) ++ argv.flatMap bulk := by
  simp only [writeCommand] at h
  split at h
  swap
  · cases h
  cases hw : writeAll totlen argv ⟨(wrap32 (totlen + 1) % 2 ^ 64).toNat, [], 0⟩ with
  | error f =>
      rw [hw] at h
      cases h
  | ok w =>
      rw [hw] at h
      cases h
      obtain ⟨u, hu, hw⟩ := bind_eq_ok hw
      obtain ⟨v, hv, hw⟩ := bind_eq_ok hw
      split at hw
      · rw [put_ok hw, writeBulks_ok hv, put_ok hu, List.append_nil, List.nil_append]
      · cases hw

theorem signedDecimal_natCast (n : ℕ) : signedDecimal n = decimal n := by
  rw [signedDecimal, if_neg (by omega), Int.natAbs_natCast]

theorem header_eq {argv : List (List UInt8)} (h : argv.length < 2 ^ 31) :
    42 :: (signedDecimal (wrap32 argv.length) ++ crlf) ++ argv.flatMap bulk =
      MuxHiredis.redisFormatCommandArgv argv := by
  rw [wrap32_of_lt (by omega) (by omega), signedDecimal_natCast]
  rfl

/-! ## Room for the command -/

/-- A writer in the middle of its work. -/
def Writer.at (size : ℕ) (bytes : List UInt8) : Writer := ⟨size, bytes, bytes.length⟩

theorem put_at {size : ℕ} {bytes s : List UInt8} {extra : ℕ}
    (hpos : bytes.length + s.length < 2 ^ 31) (h : bytes.length + s.length + extra ≤ size) :
    (Writer.at size bytes).put s extra = .ok (.at size (bytes ++ s)) := by
  have hwrap : wrap32 ((bytes.length : ℤ) + s.length) = (bytes ++ s).length := by
    rw [List.length_append, Nat.cast_add, wrap32_of_lt (by omega) (by omega)]
  simp only [Writer.put, Writer.at, true_and, if_pos h, hwrap]

theorem writeBulk_at {size : ℕ} {bytes arg : List UInt8}
    (hpos : bytes.length + (bulk arg).length < 2 ^ 31)
    (h : bytes.length + (bulk arg).length ≤ size) :
    writeBulk (.at size bytes) arg = .ok (.at size (bytes ++ bulk arg)) := by
  rw [bulk_length] at h hpos
  have hlen : (36 :: (decimal arg.length ++ crlf)).length = (decimal arg.length).length + 3 := by
    simp [crlf]
  have hcrlf : crlf.length = 2 := rfl
  unfold writeBulk Writer.sprintf Writer.memcpy
  rw [put_at (by rw [hlen]; omega) (by rw [hlen]; omega)]
  simp only [bind, Except.bind]
  rw [put_at (by rw [List.length_append, hlen]; omega) (by rw [List.length_append, hlen]; omega)]
  simp only
  rw [put_at (by rw [List.length_append, List.length_append, hlen, hcrlf]; omega)
    (by rw [List.length_append, List.length_append, hlen, hcrlf]; omega)]
  simp [bulk]

theorem writeBulks_at {size : ℕ} {argv : List (List UInt8)} {bytes : List UInt8}
    (hpos : bytes.length + (argv.flatMap bulk).length < 2 ^ 31)
    (h : bytes.length + (argv.flatMap bulk).length ≤ size) :
    argv.foldlM writeBulk (.at size bytes) = .ok (.at size (bytes ++ argv.flatMap bulk)) := by
  induction argv generalizing bytes with
  | nil => simp [pure, Except.pure]
  | cons arg argv ih =>
      simp only [List.flatMap_cons, List.length_append] at h hpos ⊢
      rw [List.foldlM_cons, writeBulk_at (by omega) (by omega)]
      simp only [bind, Except.bind]
      rw [ih (by rw [List.length_append]; omega) (by rw [List.length_append]; omega),
        List.append_assoc]

/-- The number of bytes that are asked for a command of `totlen` bytes. -/
def commandSize (totlen : ℤ) : ℕ := (wrap32 (totlen + 1) % 2 ^ 64).toNat

theorem commandSize_eq {len : ℕ} (h : len + 1 < 2 ^ 31) : commandSize len = len + 1 := by
  rw [commandSize, wrap32_of_lt (by omega) (by omega)]
  omega

/-- Just below `2 ^ 31` the request overflows to a negative number. -/
theorem commandSize_max : commandSize ((2 ^ 31 - 1 : ℕ) : ℤ) = 2 ^ 64 - 2 ^ 31 := by
  decide

theorem lt_commandSize {len : ℕ} (h : len < 2 ^ 31) : len < commandSize len := by
  by_cases hmax : len + 1 < 2 ^ 31
  · rw [commandSize_eq hmax]
    exact Nat.lt_succ_self len
  · obtain rfl : len = 2 ^ 31 - 1 := by omega
    rw [commandSize_max]
    decide

theorem writeCommand_fits {malloc : ℕ → Bool} {argv : List (List UInt8)} {len : ℕ}
    (hlen : (MuxHiredis.redisFormatCommandArgv argv).length = len) (hfit : len < 2 ^ 31)
    (hmalloc : malloc (commandSize len) = true) :
    writeCommand malloc len argv = .cmd len (MuxHiredis.redisFormatCommandArgv argv) := by
  have hformat := format_length argv
  have hcount := (le_flatMap_length lt_bulk_length argv).1
  have hroom := lt_commandSize hfit
  have hargc : argv.length < 2 ^ 31 := by omega
  have hsigned : signedDecimal (wrap32 argv.length) = decimal argv.length := by
    rw [wrap32_of_lt (by omega) (by omega), signedDecimal_natCast]
  have hall : writeAll len argv (.at (commandSize len) []) =
      .ok (.at (commandSize len) (MuxHiredis.redisFormatCommandArgv argv)) := by
    have hheader : ([] : List UInt8).length + (42 :: (decimal argv.length ++ crlf)).length + 1 ≤
        commandSize len := by
      rw [← headerLen_eq, List.length_nil]
      omega
    unfold writeAll Writer.sprintf
    rw [hsigned, put_at (by rw [← headerLen_eq, List.length_nil]; omega) hheader]
    simp only [bind, Except.bind]
    rw [writeBulks_at (by rw [List.nil_append, ← headerLen_eq]; omega)
      (by rw [List.nil_append, ← headerLen_eq]; omega)]
    have hbytes : [] ++ 42 :: (decimal argv.length ++ crlf) ++ argv.flatMap bulk =
        MuxHiredis.redisFormatCommandArgv argv := rfl
    have hpos : (Writer.at (commandSize len) (MuxHiredis.redisFormatCommandArgv argv)).pos =
        len := congrArg Nat.cast hlen
    simp only [hbytes, if_pos hpos]
    rw [put_at (by rw [hlen]; simpa using hfit) (by rw [hlen]; simpa using hroom),
      List.append_nil]
  have hsize : (wrap32 ((len : ℤ) + 1) % 2 ^ 64).toNat = commandSize len := rfl
  have hstart : (⟨commandSize len, [], 0⟩ : Writer) = .at (commandSize len) [] := rfl
  simp only [writeCommand, hsize, hmalloc, if_true, hstart, hall]
  rfl

/-! ## `redisFormatCommandArgv` -/

theorem arguments_length (argv : List (List UInt8)) :
    arguments argv (some (argv.map List.length)) = argv := by
  induction argv with
  | nil => rfl
  | cons arg argv ih =>
      have htail : List.zipWith (fun arg len ↦ arg.take len) argv (argv.map List.length) = argv :=
        ih
      simp only [arguments, List.map_cons, List.zipWith_cons_cons, List.take_length, htail]

theorem redisFormatCommandArgv_fits {malloc : ℕ → Bool} (argv : List (List UInt8))
    (argvlen : Option (List ℕ)) {len : ℕ}
    (hlen : (MuxHiredis.redisFormatCommandArgv (arguments argv argvlen)).length = len)
    (hfit : len < 2 ^ 31) (hmalloc : malloc (commandSize len) = true) :
    redisFormatCommandArgv malloc argv argvlen =
      .cmd len (MuxHiredis.redisFormatCommandArgv (arguments argv argvlen)) := by
  have hsum := format_length (arguments argv argvlen)
  simp only [redisFormatCommandArgv]
  rw [foldl_addBulk (by omega), ← hsum, hlen]
  exact writeCommand_fits hlen hfit hmalloc

/-! ## `redisFormatSdsCommandArgv` -/

@[simp] theorem sdscatfmtPut_bytes (s : Sds) (t : List UInt8) :
    (sdscatfmtPut s t).bytes = s.bytes ++ t := by
  unfold sdscatfmtPut
  split <;> simp

theorem sdscatfmt_size (s : Sds) (n : ℕ) :
    ∃ s', sdscatfmt s ([36, 37, 117] ++ crlf) [.size n] = .ok s' ∧
      s'.bytes = s.bytes ++ 36 :: (decimal (n % 2 ^ 32) ++ crlf) := by
  refine ⟨_, rfl, ?_⟩
  simp only [sdscatfmtPut_bytes, crlf, List.append_assoc, List.singleton_append]
  rfl

theorem sdscatfmt_argc (s : Sds) (argc : ℤ) :
    ∃ s', sdscatfmt s ([42, 37, 105] ++ crlf) [.int argc] = .ok s' ∧
      s'.bytes = s.bytes ++ 42 :: (signedDecimal (wrap32 argc) ++ crlf) := by
  refine ⟨_, rfl, ?_⟩
  simp only [sdscatfmtPut_bytes, crlf, List.append_assoc, List.singleton_append]
  rfl

/-- An argument as `redisFormatSdsCommandArgv` writes it, whose length is taken
for an `unsigned int`. -/
def bulk32 (arg : List UInt8) : List UInt8 :=
  36 :: (decimal (arg.length % 2 ^ 32) ++ crlf ++ arg ++ crlf)

theorem bulk32_eq {arg : List UInt8} (h : arg.length < 2 ^ 32) : bulk32 arg = bulk arg := by
  rw [bulk32, Nat.mod_eq_of_lt h, bulk]

theorem lt_bulk32_length (arg : List UInt8) : arg.length < (bulk32 arg).length := by
  simp only [bulk32, crlf, List.length_cons, List.length_append, List.length_nil]
  omega

theorem sdscatBulk_bytes (cmd : Sds) (arg : List UInt8) :
    ∃ cmd', sdscatBulk cmd arg = .ok cmd' ∧ cmd'.bytes = cmd.bytes ++ bulk32 arg := by
  obtain ⟨s, hs, hbytes⟩ := sdscatfmt_size cmd arg.length
  refine ⟨sdscatlen (sdscatlen s arg) crlf, ?_, ?_⟩
  · simp only [sdscatBulk, hs]
    rfl
  · simp only [sdscatlen_bytes, hbytes, bulk32, List.append_assoc, List.cons_append]

theorem sdscatBulks_bytes (args : List (List UInt8)) (cmd : Sds) :
    ∃ cmd', args.foldlM sdscatBulk cmd = .ok cmd' ∧
      cmd'.bytes = cmd.bytes ++ args.flatMap bulk32 := by
  induction args generalizing cmd with
  | nil => exact ⟨cmd, rfl, by simp⟩
  | cons arg args ih =>
      obtain ⟨s, hs, hbytes⟩ := sdscatBulk_bytes cmd arg
      obtain ⟨cmd', hcmd, hall⟩ := ih s
      refine ⟨cmd', ?_, ?_⟩
      · rw [List.foldlM_cons, hs]
        exact hcmd
      · rw [hall, hbytes, List.flatMap_cons, List.append_assoc]

/-- The assertion decides, and the bytes are the same in any case. -/
theorem sdscatAll_bytes (totlen : ℕ) (args : List (List UInt8)) (cmd : Sds) :
    ∃ cmd', sdscatAll totlen args cmd =
        (if cmd'.bytes.length = totlen then .ok cmd' else .error .assertion) ∧
      cmd'.bytes = cmd.bytes ++
        (42 :: (signedDecimal (wrap32 args.length) ++ crlf) ++ args.flatMap bulk32) := by
  obtain ⟨s, hs, hbytes⟩ := sdscatfmt_argc cmd args.length
  obtain ⟨cmd', hcmd, hall⟩ := sdscatBulks_bytes args s
  refine ⟨cmd', ?_, ?_⟩
  · unfold sdscatAll
    rw [hs]
    simp only [bind, Except.bind, hcmd]
    rfl
  · rw [hall, hbytes, List.append_assoc]

theorem flatMap_bulk32 {args : List (List UInt8)} (h : ∀ arg ∈ args, arg.length < 2 ^ 32) :
    args.flatMap bulk32 = args.flatMap bulk := by
  induction args with
  | nil => rfl
  | cons arg args ih =>
      rw [List.flatMap_cons, List.flatMap_cons, bulk32_eq (h arg (by simp)),
        ih fun a ha ↦ h a (by simp [ha])]

theorem redisFormatSdsCommandArgv_fits (argv : List (List UInt8)) (argvlen : Option (List ℕ))
    {len : ℕ} (hlen : (MuxHiredis.redisFormatCommandArgv (arguments argv argvlen)).length = len)
    (hfit : len < 2 ^ 31) :
    redisFormatSdsCommandArgv argv argvlen =
      .cmd len (MuxHiredis.redisFormatCommandArgv (arguments argv argvlen)) := by
  simp only [redisFormatSdsCommandArgv]
  generalize arguments argv argvlen = args at hlen ⊢
  have hsum := format_length args
  obtain ⟨hargc, hargs⟩ := le_flatMap_length lt_bulk_length args
  have hbulks : args.flatMap bulk32 = args.flatMap bulk :=
    flatMap_bulk32 fun arg ha ↦ (hargs arg ha).trans_lt (by omega)
  have htotal : args.foldl (fun totlen arg ↦ (totlen + bulklen arg.length) % 2 ^ 64)
      (headerLen args.length) = len := by
    rw [foldl_size (by omega), ← hsum, hlen]
  obtain ⟨cmd, hcmd, hbytes⟩ := sdscatAll_bytes len args (sdsMakeRoomFor sdsempty len)
  rw [hbulks, header_eq (by omega), sdsMakeRoomFor_bytes, sdsempty_bytes,
    List.nil_append] at hbytes
  rw [if_pos (by rw [hbytes, hlen])] at hcmd
  simp only [htotal, hcmd, hbytes]
  rw [wrap32_of_lt (by omega) (by omega)]

/-! ## Commands that were formatted -/

theorem writeCommand_eq {malloc : ℕ → Bool} {totlen len : ℤ} {argv : List (List UInt8)}
    {bytes : List UInt8} (h : writeCommand malloc totlen argv = .cmd len bytes)
    (hlen : bytes.length < 2 ^ 31) : bytes = MuxHiredis.redisFormatCommandArgv argv := by
  have hbytes := writeCommand_cmd h
  have hargc := (le_flatMap_length lt_bulk_length argv).1
  rw [hbytes, List.length_append] at hlen
  rw [hbytes, header_eq (by omega)]

theorem redisFormatCommandArgv_cmd {malloc : ℕ → Bool} {argv : List (List UInt8)} {len : ℤ}
    {bytes : List UInt8}
    (h : redisFormatCommandArgv malloc argv (some (argv.map List.length)) = .cmd len bytes)
    (hlen : bytes.length < 2 ^ 31) : bytes = MuxHiredis.redisFormatCommandArgv argv := by
  simp only [redisFormatCommandArgv, arguments_length] at h
  exact writeCommand_eq h hlen

theorem redisFormatSdsCommandArgv_cmd {argv : List (List UInt8)} {len : ℤ}
    {bytes : List UInt8}
    (h : redisFormatSdsCommandArgv argv (some (argv.map List.length)) = .cmd len bytes)
    (hlen : bytes.length < 2 ^ 31) : bytes = MuxHiredis.redisFormatCommandArgv argv := by
  simp only [redisFormatSdsCommandArgv, arguments_length] at h
  generalize argv.foldl _ (headerLen argv.length) = totlen at h
  obtain ⟨cmd, hcmd, hbytes⟩ := sdscatAll_bytes totlen argv (sdsMakeRoomFor sdsempty totlen)
  by_cases htot : cmd.bytes.length = totlen
  swap
  · rw [hcmd, if_neg htot] at h
    cases h
  rw [hcmd, if_pos htot] at h
  simp only [Result.cmd.injEq] at h
  obtain ⟨-, rfl⟩ := h
  rw [sdsMakeRoomFor_bytes, sdsempty_bytes, List.nil_append] at hbytes
  have hbound : (argv.flatMap bulk32).length ≤ cmd.bytes.length := by
    rw [hbytes, List.length_append]
    exact Nat.le_add_left _ _
  obtain ⟨hargc, hargs⟩ := le_flatMap_length lt_bulk32_length argv
  have hbulks : argv.flatMap bulk32 = argv.flatMap bulk :=
    flatMap_bulk32 fun arg ha ↦ (hargs arg ha).trans_lt (by omega)
  rw [hbytes, hbulks, header_eq (by omega)]

end Format

end MuxHiredis
