import MuxHiredis.Format.Bytes
import MuxHiredis.Reader.RoundTrip

/-!
# Commands that are read back

Commands formatted by any of the three functions, one after the other, are read
by a reply reader as arrays of strings, however the bytes are cut.
-/

namespace MuxHiredis

open Resumable

namespace Format

/-! ## One `%b` for each argument -/

/-- `%b`, as often as there are arguments, with single spaces in between. -/
def binaryFormat (argc : ℕ) : List UInt8 :=
  List.intercalate [32] (List.replicate argc [37, 98])

/-- The pointer and the length of every argument. -/
def binaryArgs (argv : List (List UInt8)) : List VaArg :=
  argv.flatMap fun arg ↦ [.ptr arg, .size arg.length]

theorem binaryFormat_succ_succ (argc : ℕ) :
    binaryFormat (argc + 2) = 37 :: 98 :: 32 :: binaryFormat (argc + 1) := rfl

theorem binaryFormat_length (argc : ℕ) : (binaryFormat (argc + 1)).length = 3 * argc + 2 := by
  induction argc with
  | zero => rfl
  | succ argc ih =>
      rw [binaryFormat_succ_succ]
      simp only [List.length_cons, ih]
      omega

section Scan

variable (vsnprintf : List UInt8 → List VaArg → List UInt8)

theorem scanStep_binary {s : Scan} {c arg : List UInt8} {ap : List VaArg}
    (hc : s.c = 37 :: 98 :: c) (hap : s.ap = .ptr arg :: .size arg.length :: ap) :
    ∃ curarg, scanStep vsnprintf s =
        .ok { s with c := c, ap := ap, curarg := curarg, touched := true } ∧
      curarg.bytes = s.curarg.bytes ++ arg := by
  refine ⟨if 0 < arg.length then sdscatlen s.curarg arg else s.curarg, ?_, ?_⟩
  · simp only [scanStep, hc, interpolate, hap]
    simp
    rfl
  · split
    · rw [sdscatlen_bytes]
    · rename_i hpos
      have hnil : arg = [] := List.length_eq_zero_iff.mp (by omega)
      rw [hnil, List.append_nil]

theorem scanStep_space {s : Scan} {c : List UInt8} (hc : s.c = 32 :: c)
    (ht : s.touched = true) : scanStep vsnprintf s = .ok { s.push with c := c } := by
  simp [scanStep, hc, ht]

theorem scanLoop_step {s s' : Scan} {b : UInt8} {c : List UInt8} (fuel : ℕ)
    (hc : s.c = b :: c) (hb : b ≠ 0) (hstep : scanStep vsnprintf s = .ok s') :
    scanLoop vsnprintf (fuel + 1) s = scanLoop vsnprintf fuel s' := by
  simp only [scanLoop, hc, if_neg hb, hstep]
  rfl

theorem scanLoop_end {s : Scan} {c : List UInt8} (fuel : ℕ) (hc : s.c = 0 :: c) :
    scanLoop vsnprintf (fuel + 1) s = .ok s := by
  simp only [scanLoop, hc, if_true]

/-- The scan from the start of an argument on, by induction on the arguments
after it. -/
theorem scanLoop_binary (arg : List UInt8) (args : List (List UInt8)) (fuel : ℕ) {s : Scan}
    (hc : s.c = binaryFormat (args.length + 1) ++ [0]) (hap : s.ap = binaryArgs (arg :: args))
    (hcur : s.curarg.bytes = []) (hfuel : 2 * args.length + 2 ≤ fuel) :
    ∃ s', scanLoop vsnprintf fuel s = .ok s' ∧ s'.touched = true ∧
      s'.push.curargv.map Sds.bytes = s.curargv.map Sds.bytes ++ arg :: args ∧
      s'.push.totlen = (arg :: args).foldl addBulk s.totlen := by
  induction args generalizing arg s fuel with
  | nil =>
      obtain ⟨fuel, rfl⟩ : ∃ n, fuel = n + 2 := ⟨fuel - 2, by simp at hfuel; omega⟩
      obtain ⟨curarg, hstep, hbytes⟩ := scanStep_binary vsnprintf (c := [0]) hc hap
      rw [hcur, List.nil_append] at hbytes
      rw [scanLoop_step vsnprintf _ hc (by decide) hstep, scanLoop_end vsnprintf _ rfl]
      refine ⟨_, rfl, rfl, ?_, ?_⟩
      · simp only [Scan.push, List.map_append, List.map_cons, List.map_nil, hbytes]
      · simp only [Scan.push, hbytes, List.foldl_cons, List.foldl_nil]
  | cons next args ih =>
      obtain ⟨fuel, rfl⟩ : ∃ n, fuel = n + 2 :=
        ⟨fuel - 2, by rw [List.length_cons] at hfuel; omega⟩
      rw [List.length_cons, binaryFormat_succ_succ] at hc
      obtain ⟨curarg, hstep, hbytes⟩ := scanStep_binary vsnprintf hc hap
      rw [hcur, List.nil_append] at hbytes
      rw [scanLoop_step vsnprintf _ hc (by decide) hstep,
        scanLoop_step vsnprintf _ rfl (by decide) (scanStep_space vsnprintf rfl rfl)]
      rw [List.length_cons] at hfuel
      obtain ⟨s', hrun, ht, hargv, htot⟩ := ih next fuel
        (s := { Scan.push { s with
          c := 32 :: (binaryFormat (args.length + 1) ++ [0])
          ap := binaryArgs (next :: args)
          curarg := curarg
          touched := true } with c := binaryFormat (args.length + 1) ++ [0] })
        rfl rfl rfl (by omega)
      refine ⟨s', hrun, ht, ?_, ?_⟩
      · rw [hargv]
        simp only [Scan.push, List.map_append, List.map_cons, List.map_nil, hbytes,
          List.append_assoc, List.singleton_append]
      · rw [htot]
        simp only [Scan.push, hbytes, List.foldl_cons]

theorem redisvFormatCommand_binary (malloc : ℕ → Bool) (argv : List (List UInt8)) :
    redisvFormatCommand malloc vsnprintf (binaryFormat argv.length) (binaryArgs argv) =
      writeCommand malloc (wrap32 (argv.foldl addBulk 0 + headerLen argv.length)) argv := by
  cases argv with
  | nil => rfl
  | cons arg args =>
      obtain ⟨s, hrun, ht, hargv, htot⟩ := scanLoop_binary vsnprintf arg args
        ((binaryFormat (args.length + 1)).length + 2)
        (s := ⟨binaryFormat (args.length + 1) ++ [0], binaryArgs (arg :: args), sdsempty, false,
          [], 0⟩) rfl rfl rfl (by rw [binaryFormat_length]; omega)
      have hargc : s.push.curargv.length = (arg :: args).length := by
        rw [← List.length_map (f := Sds.bytes), hargv]
        rfl
      simp only [redisvFormatCommand, List.length_cons, hrun, ht, if_true]
      rw [hargv, htot, hargc]
      rfl

end Scan

/-! ## The three functions -/

/-- Which function formats a command. -/
inductive Formatter where
  | commandArgv | sdsCommandArgv | command
  deriving DecidableEq, Repr

/-- Format the arguments, all given with their lengths. -/
def Formatter.run (malloc : ℕ → Bool) (vsnprintf : List UInt8 → List VaArg → List UInt8) :
    Formatter → List (List UInt8) → Result
  | commandArgv, argv => redisFormatCommandArgv malloc argv (some (argv.map List.length))
  | sdsCommandArgv, argv => redisFormatSdsCommandArgv argv (some (argv.map List.length))
  | command, argv =>
      redisFormatCommand malloc vsnprintf (binaryFormat argv.length) (binaryArgs argv)

theorem Formatter.run_fits {malloc : ℕ → Bool}
    (vsnprintf : List UInt8 → List VaArg → List UInt8) (f : Formatter)
    {argv : List (List UInt8)} {len : ℕ}
    (hlen : (MuxHiredis.redisFormatCommandArgv argv).length = len) (hfit : len + 1 < 2 ^ 31)
    (hmalloc : malloc (len + 1) = true) :
    f.run malloc vsnprintf argv = .cmd len (MuxHiredis.redisFormatCommandArgv argv) := by
  have hsum := format_length argv
  rw [← commandSize_eq hfit] at hmalloc
  cases f with
  | commandArgv =>
      rw [← arguments_length argv] at hlen
      rw [run, redisFormatCommandArgv_fits argv _ hlen (by omega) hmalloc, arguments_length]
  | sdsCommandArgv =>
      rw [← arguments_length argv] at hlen
      rw [run, redisFormatSdsCommandArgv_fits argv _ hlen (by omega), arguments_length]
  | command =>
      have htot : wrap32 (argv.foldl addBulk 0 + headerLen argv.length) = len := by
        rw [← Nat.cast_zero, foldl_addBulk (by omega), ← Nat.cast_add,
          wrap32_of_lt (by omega) (by omega)]
        congr 1
        omega
      simp only [run, redisFormatCommand, redisvFormatCommand_binary, htot,
        writeCommand_fits hlen (by omega) hmalloc]

theorem Formatter.run_cmd {malloc : ℕ → Bool}
    {vsnprintf : List UInt8 → List VaArg → List UInt8} {f : Formatter}
    {argv : List (List UInt8)} {len : ℤ} {bytes : List UInt8}
    (h : f.run malloc vsnprintf argv = .cmd len bytes) (hlen : bytes.length < 2 ^ 31) :
    bytes = MuxHiredis.redisFormatCommandArgv argv := by
  cases f with
  | commandArgv => exact redisFormatCommandArgv_cmd h hlen
  | sdsCommandArgv => exact redisFormatSdsCommandArgv_cmd h hlen
  | command =>
      simp only [run, redisFormatCommand, redisvFormatCommand_binary] at h
      split at h
      · cases h
      · exact writeCommand_eq h hlen

/-! ## Reading the commands -/

/-- A command as a reply reader sees it. -/
def commandTree (argv : List (List UInt8)) : ReplyTree := .array (argv.map .string)

theorem encodeAll_strings (argv : List (List UInt8)) :
    ReplyTree.encodeAll (argv.map .string) = argv.flatMap bulk := by
  induction argv with
  | nil => rfl
  | cons arg argv ih =>
      rw [List.map_cons, ReplyTree.encodeAll, ReplyTree.encode, signedDecimal_natCast, ih,
        List.flatMap_cons, bulk]

theorem encode_commandTree (argv : List (List UInt8)) :
    (commandTree argv).encode = MuxHiredis.redisFormatCommandArgv argv := by
  rw [commandTree, ReplyTree.encode, encodeAll_strings, List.length_map, signedDecimal_natCast,
    MuxHiredis.redisFormatCommandArgv, List.cons_append]

theorem sendableAll_strings (d : ℕ) (argv : List (List UInt8)) :
    ReplyTree.SendableAll d (argv.map .string) := by
  induction argv with
  | nil => trivial
  | cons arg argv ih => exact ⟨trivial, ih⟩

theorem sendable_commandTree {argv : List (List UInt8)}
    (h : (MuxHiredis.redisFormatCommandArgv argv).length < 2 ^ 31) :
    (commandTree argv).Sendable 0 := by
  have hargc := (le_flatMap_length lt_bulk_length argv).1
  rw [format_length] at h
  refine ⟨by omega, ?_, sendableAll_strings 1 argv⟩
  rw [List.length_map]
  omega

theorem encodeAll_commands (cmds : List (List (List UInt8))) :
    ReplyTree.encodeAll (cmds.map commandTree) =
      (cmds.map MuxHiredis.redisFormatCommandArgv).flatten := by
  induction cmds with
  | nil => rfl
  | cons argv cmds ih =>
      rw [List.map_cons, ReplyTree.encodeAll, encode_commandTree, ih, List.map_cons,
        List.flatten_cons]

theorem sendableAll_commands {cmds : List (List (List UInt8))}
    (h : (ReplyTree.encodeAll (cmds.map commandTree)).length < 2 ^ 31) :
    ReplyTree.SendableAll 0 (cmds.map commandTree) := by
  induction cmds with
  | nil => trivial
  | cons argv cmds ih =>
      rw [List.map_cons, ReplyTree.encodeAll, List.length_append, encode_commandTree] at h
      exact ⟨sendable_commandTree (by omega), ih (by omega)⟩

theorem run_flatten {malloc : ℕ → Bool} {vsnprintf : List UInt8 → List VaArg → List UInt8}
    {cmds : List (Formatter × List (List UInt8))} {out : List (List UInt8)}
    (h : List.Forall₂ (fun c bytes ↦ ∃ len, c.1.run malloc vsnprintf c.2 = .cmd len bytes)
      cmds out) (hlen : out.flatten.length < 2 ^ 31) :
    out = cmds.map fun c ↦ MuxHiredis.redisFormatCommandArgv c.2 := by
  induction h with
  | nil => rfl
  | cons hrun _ ih =>
      rw [List.flatten_cons, List.length_append] at hlen
      obtain ⟨len, hrun⟩ := hrun
      rw [List.map_cons, ← ih (by omega), Formatter.run_cmd hrun (by omega)]

end Format

namespace RedisReader

open Format

/-- Every command that fits is formatted; and whatever commands were formatted,
by whichever function, they are read in order as arrays of their arguments, and
the reader is left at the start of a reply with nothing unread. -/
theorem feedChunks_commands (malloc : ℕ → Bool)
    (vsnprintf : List UInt8 → List VaArg → List UInt8) {h : Heap} (hq : h.Quiet)
    (cmds : List (Formatter × List (List UInt8))) :
    (∀ c ∈ cmds, ∀ len, (commandTree c.2).encode.length = len → len + 1 < 2 ^ 31 →
      malloc (len + 1) = true →
        c.1.run malloc vsnprintf c.2 = .cmd len (commandTree c.2).encode) ∧
    ∀ out, List.Forall₂ (fun c bytes ↦ ∃ len, c.1.run malloc vsnprintf c.2 = .cmd len bytes)
        cmds out → out.flatten.length < 2 ^ 31 →
      ∀ chunks : List (List UInt8), chunks.flatten = out.flatten →
        List.Forall₂ (fun c p ↦
            ∀ t, ReplyTree.Represents p.2.cells p.1 t ↔ t = commandTree c.2)
          cmds ((create defaultFunctions h).feedChunks chunks).1 ∧
        ((create defaultFunctions h).feedChunks chunks).2.outcome = none ∧
        ((create defaultFunctions h).feedChunks chunks).2.unread = [] ∧
        ((create defaultFunctions h).feedChunks chunks).2.start.Ready := by
  constructor
  · intro c _ len hlen hfit hmalloc
    rw [encode_commandTree] at hlen ⊢
    exact c.1.run_fits vsnprintf hlen hfit hmalloc
  · intro out hout hlen chunks hchunks
    have hbytes : chunks.flatten = ReplyTree.encodeAll ((cmds.map Prod.snd).map commandTree) := by
      rw [hchunks, run_flatten hout hlen, encodeAll_commands, List.map_map]
      rfl
    have hwithin := hlen
    rw [← hchunks, hbytes] at hwithin
    have hready : (create defaultFunctions h).start.Ready := ⟨rfl, rfl, hq⟩
    obtain ⟨replies, s, hdrain, hs, hall⟩ :=
      ReadState.drain_encodeAll _ (sendableAll_commands hwithin) hwithin hready
    obtain ⟨hreplies, hholds⟩ := feedChunks_drain defaultFunctions h chunks
    rw [hbytes, hdrain] at hreplies hholds
    obtain ⟨hlive, hstart, hunread⟩ := hholds
    refine ⟨?_, ?_, hunread, hstart ▸ hs⟩
    · rw [hreplies]
      rw [List.map_map, List.forall₂_map_left_iff] at hall
      exact hall.imp fun _ _ htree ↦ htree.iff_eq
    · rw [outcome, hlive.err]
      rfl

/-- An empty command and one with an empty argument and a `\r\n`, in three
chunks. -/
theorem feedChunks_commands_three :
    List.Forall₂ (fun c p ↦ ∀ t, ReplyTree.Represents p.2.cells p.1 t ↔ t = commandTree c.2)
      [(Formatter.sdsCommandArgv, []), (Formatter.command, [[], [13, 10]])]
      ((create defaultFunctions Heap.empty).feedChunks
        [[42, 48, 13], [10, 42, 50, 13, 10, 36, 48, 13, 10, 13],
          [10, 36, 50, 13, 10, 13, 10, 13, 10]]).1 := by
  have hall := (feedChunks_commands (fun _ ↦ true) (fun _ _ ↦ []) (h := Heap.empty)
    ⟨rfl, fun _ ↦ rfl⟩ [(Formatter.sdsCommandArgv, []), (Formatter.command, [[], [13, 10]])]).2
    [[42, 48, 13, 10], [42, 50, 13, 10, 36, 48, 13, 10, 13, 10, 36, 50, 13, 10, 13, 10, 13, 10]]
  have hout : List.Forall₂ (fun c bytes ↦
      ∃ len, Formatter.run (fun _ ↦ true) (fun _ _ ↦ []) c.1 c.2 = .cmd len bytes)
      [(Formatter.sdsCommandArgv, []), (Formatter.command, [[], [13, 10]])]
      [[42, 48, 13, 10],
        [42, 50, 13, 10, 36, 48, 13, 10, 13, 10, 36, 50, 13, 10, 13, 10, 13, 10]] :=
    .cons ⟨4, by decide⟩ (.cons ⟨18, by decide⟩ .nil)
  exact (hall hout (by decide) [[42, 48, 13], [10, 42, 50, 13, 10, 36, 48, 13, 10, 13],
    [10, 36, 50, 13, 10, 13, 10, 13, 10]] rfl).1

end RedisReader

end MuxHiredis
