import MuxHiredis.Format.Bytes

/-!
# Lengths that wrap around

The total that the formatting functions keep in an `int` is the length of the
command up to a multiple of `2 ^ 32`.  Whether the bytes asked for suffice is
decided by that.
-/

namespace MuxHiredis

namespace Format

/-! ## The total -/

theorem wrap32_congr {x y : ℤ} (h : x % 2 ^ 32 = y % 2 ^ 32) : wrap32 x = wrap32 y := by
  unfold wrap32 Int.bmod
  norm_num at h ⊢
  rw [h]

theorem wrap32_emod (x : ℤ) : wrap32 x % 2 ^ 32 = x % 2 ^ 32 := by
  unfold wrap32
  exact Int.bmod_emod

theorem wrap32_wrap32 (x : ℤ) : wrap32 (wrap32 x) = wrap32 x :=
  wrap32_congr (wrap32_emod x)

theorem addBulk_eq (totlen : ℤ) (arg : List UInt8) :
    addBulk totlen arg = wrap32 (totlen + (bulk arg).length) := by
  apply wrap32_congr
  rw [bulklen, countDigits_eq, ← bulk_length]
  omega

theorem foldl_addBulk_wrap (argv : List (List UInt8)) (totlen : ℤ) :
    wrap32 (argv.foldl addBulk totlen) = wrap32 (totlen + (argv.flatMap bulk).length) := by
  induction argv generalizing totlen with
  | nil => simp
  | cons arg argv ih =>
      rw [List.foldl_cons, ih, addBulk_eq, List.flatMap_cons, List.length_append]
      apply wrap32_congr
      have := wrap32_emod (totlen + (bulk arg).length)
      omega

theorem wrap32_addBulk (totlen : ℤ) (arg : List UInt8) :
    wrap32 (addBulk totlen arg) = addBulk totlen arg := by
  rw [addBulk, wrap32_wrap32]

theorem wrap32_foldl_addBulk (argv : List (List UInt8)) {totlen : ℤ}
    (h : wrap32 totlen = totlen) :
    wrap32 (argv.foldl addBulk totlen) = argv.foldl addBulk totlen := by
  rcases List.eq_nil_or_concat argv with rfl | ⟨init, last, rfl⟩
  · exact h
  · rw [List.concat_eq_append, List.foldl_append]
    exact wrap32_addBulk _ last

theorem headerLen_nil : wrap32 (headerLen 0) = headerLen 0 := by decide

/-- The total that `redisFormatCommandArgv` arrives at. -/
theorem foldl_headerLen (args : List (List UInt8)) :
    args.foldl addBulk (headerLen args.length) =
      wrap32 (MuxHiredis.redisFormatCommandArgv args).length := by
  rw [format_length, Nat.cast_add, ← foldl_addBulk_wrap]
  cases args with
  | nil => exact headerLen_nil.symm
  | cons arg args =>
      rw [List.foldl_cons, wrap32_foldl_addBulk args (wrap32_addBulk _ arg)]

theorem redisFormatCommandArgv_eq (malloc : ℕ → Bool) (argv : List (List UInt8))
    (argvlen : Option (List ℕ)) :
    redisFormatCommandArgv malloc argv argvlen =
      writeCommand malloc
        (wrap32 (MuxHiredis.redisFormatCommandArgv (arguments argv argvlen)).length)
        (arguments argv argvlen) := by
  simp only [redisFormatCommandArgv]
  rw [foldl_headerLen]

theorem commandSize_wrap (totlen : ℤ) : commandSize (wrap32 totlen) = commandSize totlen := by
  have hwrap : wrap32 (wrap32 totlen + 1) = wrap32 (totlen + 1) := by
    apply wrap32_congr
    have := wrap32_emod totlen
    omega
  rw [commandSize, hwrap, commandSize]

theorem writeCommand_refused {malloc : ℕ → Bool} {totlen : ℤ}
    (h : malloc (commandSize totlen) = false) (argv : List (List UInt8)) :
    writeCommand malloc totlen argv = .err (-1) := by
  have hsize : (wrap32 (totlen + 1) % 2 ^ 64).toNat = commandSize totlen := rfl
  simp only [writeCommand, hsize, h, Bool.false_eq_true, if_false]

theorem redisFormatCommandArgv_refused {malloc : ℕ → Bool} (argv : List (List UInt8))
    (argvlen : Option (List ℕ))
    (hlen : (MuxHiredis.redisFormatCommandArgv (arguments argv argvlen)).length = 2 ^ 31 - 1)
    (hmalloc : malloc (2 ^ 64 - 2 ^ 31) = false) :
    redisFormatCommandArgv malloc argv argvlen = .err (-1) := by
  rw [redisFormatCommandArgv_eq, hlen, writeCommand_refused]
  rw [commandSize_wrap, commandSize_max, hmalloc]

/-! ## Room for what was written -/

/-- An error, or a command of the length that was returned. -/
def Result.Exact : Result → Prop
  | .cmd len bytes => len = bytes.length
  | .err code => code = -1
  | .fault _ => False

theorem put_room {w w' : Writer} {s : List UInt8} {extra : ℕ} (h : w.put s extra = .ok w') :
    w'.size = w.size ∧ w'.bytes.length + extra ≤ w.size := by
  unfold Writer.put at h
  split at h
  case isTrue hroom =>
      cases h
      rw [List.length_append]
      exact ⟨rfl, hroom.2⟩
  case isFalse => cases h

theorem writeBulk_size {w w' : Writer} {arg : List UInt8} (h : writeBulk w arg = .ok w') :
    w'.size = w.size := by
  obtain ⟨u, hu, h⟩ := bind_eq_ok h
  obtain ⟨v, hv, h⟩ := bind_eq_ok h
  rw [(put_room h).1, (put_room hv).1, (put_room hu).1]

theorem writeBulks_size {argv : List (List UInt8)} {w w' : Writer}
    (h : argv.foldlM writeBulk w = .ok w') : w'.size = w.size := by
  induction argv generalizing w with
  | nil =>
      cases h
      rfl
  | cons arg argv ih =>
      rw [List.foldlM_cons] at h
      obtain ⟨u, hu, h⟩ := bind_eq_ok h
      rw [ih h, writeBulk_size hu]

theorem writeAll_room {totlen : ℤ} {argv : List (List UInt8)} {w w' : Writer}
    (h : writeAll totlen argv w = .ok w') : w'.bytes.length + 1 ≤ w.size := by
  obtain ⟨u, hu, h⟩ := bind_eq_ok h
  obtain ⟨v, hv, h⟩ := bind_eq_ok h
  split at h
  · have hroom := (put_room h).2
    rwa [writeBulks_size hv, (put_room hu).1] at hroom
  · cases h

theorem writeCommand_room {malloc : ℕ → Bool} {totlen len : ℤ} {argv : List (List UInt8)}
    {bytes : List UInt8} (h : writeCommand malloc totlen argv = .cmd len bytes) :
    bytes.length + 1 ≤ commandSize totlen := by
  simp only [writeCommand] at h
  split at h
  swap
  · cases h
  cases hw : writeAll totlen argv ⟨(wrap32 (totlen + 1) % 2 ^ 64).toNat, [], 0⟩ with
  | error f =>
      rw [hw] at h
      cases h
  | ok w =>
      rw [hw] at h
      cases h
      exact writeAll_room hw

theorem commandSize_lt {len : ℕ} (h : commandSize len < 2 ^ 63) : commandSize len < 2 ^ 31 := by
  have hrange : wrap32 ((len : ℤ) + 1) < 2 ^ 31 ∧ -2 ^ 31 ≤ wrap32 ((len : ℤ) + 1) := by
    have hlt := Int.bmod_lt (x := (len : ℤ) + 1) (m := 2 ^ 32) (by norm_num)
    have hle := Int.le_bmod (x := (len : ℤ) + 1) (m := 2 ^ 32) (by norm_num)
    unfold wrap32
    norm_num at hlt hle ⊢
    exact ⟨hlt, hle⟩
  rw [commandSize] at h ⊢
  omega

/-- What a command of any length comes to: the request for its truncated length is
refused, or there is room for the command and its terminator. -/
theorem writeCommand_exact_iff {malloc : ℕ → Bool}
    (hrefuse : ∀ n, 2 ^ 63 ≤ n → malloc n = false) {argv : List (List UInt8)} {len : ℕ}
    (hlen : (MuxHiredis.redisFormatCommandArgv argv).length = len) :
    (writeCommand malloc (wrap32 len) argv).Exact ↔
      malloc (commandSize len) = false ∨ len + 1 < 2 ^ 31 := by
  cases hgrant : malloc (commandSize len) with
  | false =>
      rw [writeCommand_refused (by rwa [commandSize_wrap])]
      exact ⟨fun _ ↦ .inl rfl, fun _ ↦ rfl⟩
  | true =>
      have hsize : commandSize len < 2 ^ 63 := by
        by_contra hbig
        rw [hrefuse _ (by omega)] at hgrant
        cases hgrant
      constructor
      · intro h
        cases hw : writeCommand malloc (wrap32 len) argv with
        | cmd l bytes =>
            have hroom := writeCommand_room hw
            have hlt := commandSize_lt hsize
            rw [commandSize_wrap] at hroom
            rw [← writeCommand_eq hw (by omega)] at hlen
            exact .inr (by omega)
        | err code =>
            simp only [writeCommand] at hw
            have hgranted : malloc (wrap32 (wrap32 (len : ℤ) + 1) % 2 ^ 64).toNat = true := by
              rw [← hgrant, ← commandSize_wrap]
              rfl
            rw [if_pos hgranted] at hw
            split at hw <;> cases hw
        | fault f =>
            rw [hw] at h
            cases h
      · rintro (h | h)
        · cases h
        · rw [wrap32_of_lt (by omega) (by omega), writeCommand_fits hlen (by omega) hgrant]
          exact congrArg Nat.cast hlen.symm

/-! ## The two functions on an array of arguments -/

/-- For every array of arguments whose encoding is below `2 ^ 31` bytes, the two
functions give the encoding and its length, unless the length is `2 ^ 31 - 1`:
then `redisFormatCommandArgv` asks for a negative number of bytes. -/
theorem redisFormatCommandArgv_agrees_iff (malloc : ℕ → Bool)
    (hgrant : ∀ n < 2 ^ 31, malloc n = true) (hrefuse : ∀ n, 2 ^ 63 ≤ n → malloc n = false)
    (argv : List (List UInt8)) (argvlen : Option (List ℕ)) (len : ℕ)
    (hlen : (MuxHiredis.redisFormatCommandArgv (arguments argv argvlen)).length = len)
    (hfit : len < 2 ^ 31) :
    (redisFormatCommandArgv malloc argv argvlen =
        .cmd len (MuxHiredis.redisFormatCommandArgv (arguments argv argvlen)) ∧
      redisFormatSdsCommandArgv argv argvlen =
        .cmd len (MuxHiredis.redisFormatCommandArgv (arguments argv argvlen))) ↔
      len ≠ 2 ^ 31 - 1 := by
  constructor
  · rintro ⟨hcmd, -⟩ hmax
    rw [redisFormatCommandArgv_refused argv argvlen (hlen.trans hmax)
      (hrefuse _ (by norm_num))] at hcmd
    cases hcmd
  · intro hne
    have hsize : commandSize len = len + 1 := commandSize_eq (by omega)
    exact ⟨redisFormatCommandArgv_fits argv argvlen hlen hfit
      (hsize ▸ hgrant _ (by omega)), redisFormatSdsCommandArgv_fits argv argvlen hlen hfit⟩

theorem redisFormatCommandArgv_agrees_two :
    redisFormatCommandArgv (fun n ↦ decide (n < 2 ^ 63)) [[71, 69, 84, 0], [13, 10]]
        (some [3, 2]) =
        .cmd 21 (MuxHiredis.redisFormatCommandArgv [[71, 69, 84], [13, 10]]) ∧
      redisFormatSdsCommandArgv [[71, 69, 84, 0], [13, 10]] (some [3, 2]) =
        .cmd 21 (MuxHiredis.redisFormatCommandArgv [[71, 69, 84], [13, 10]]) :=
  (redisFormatCommandArgv_agrees_iff (fun n ↦ decide (n < 2 ^ 63))
    (fun n hn ↦ decide_eq_true (by omega)) (fun n hn ↦ decide_eq_false (by omega))
    [[71, 69, 84, 0], [13, 10]] (some [3, 2]) 21 (by decide) (by decide)).mpr
    (by decide)

theorem format_length_max {arg : List UInt8} (h : arg.length = 2147483628) :
    (MuxHiredis.redisFormatCommandArgv [arg]).length = 2 ^ 31 - 1 := by
  have hdigits : (decimal 2147483628).length = 10 := by decide
  have hheader : headerLen 1 = 4 := by decide
  rw [format_length, List.flatMap_singleton, bulk_length, h, List.length_singleton, hdigits,
    hheader]
  norm_num

/-- One argument of `2 ^ 31 - 20` bytes makes a command of `2 ^ 31 - 1`. -/
theorem redisFormatCommandArgv_refused_at_max :
    (MuxHiredis.redisFormatCommandArgv [List.replicate 2147483628 0]).length = 2 ^ 31 - 1 ∧
      redisFormatCommandArgv (fun n ↦ decide (n < 2 ^ 63)) [List.replicate 2147483628 0]
        (some [2147483628]) = .err (-1) ∧
      redisFormatSdsCommandArgv [List.replicate 2147483628 0] (some [2147483628]) =
        .cmd (2 ^ 31 - 1 : ℕ)
          (MuxHiredis.redisFormatCommandArgv [List.replicate 2147483628 0]) := by
  have harg : (List.replicate 2147483628 (0 : UInt8)).length = 2147483628 :=
    List.length_replicate
  generalize List.replicate 2147483628 (0 : UInt8) = arg at harg
  have hargs : arguments [arg] (some [2147483628]) = [arg] := by
    rw [← harg]
    exact arguments_length [arg]
  have hlen := format_length_max harg
  rw [← hargs] at hlen
  have hsds := redisFormatSdsCommandArgv_fits [arg] (some [2147483628]) hlen (by decide)
  rw [hargs] at hlen hsds
  refine ⟨hlen, ?_, hsds⟩
  exact redisFormatCommandArgv_refused _ _ (by rw [hargs, hlen]) (by decide)

end Format

end MuxHiredis
