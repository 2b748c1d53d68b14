import MuxHiredis.Async.Context

/-!
# Formatted commands

`redisFormatCommandArgv`, and what `__redisAsyncCommand` reads in a command
formatted by it.
-/

namespace MuxHiredis

/-- An argument as it stands in a command. -/
def bulk (arg : List UInt8) : List UInt8 := 36 :: (decimal arg.length ++ crlf ++ arg ++ crlf)

def redisFormatCommandArgv (argv : List (List UInt8)) : List UInt8 :=
  42 :: (decimal argv.length ++ crlf) ++ argv.flatMap bulk

/-- A command as the list of its name and arguments. -/
structure Command where
  name : List UInt8
  args : List (List UInt8)
  deriving DecidableEq

def Command.bytes (c : Command) : List UInt8 := redisFormatCommandArgv (c.name :: c.args)

/-- The bytes of an ASCII text. -/
def ascii (text : String) : List UInt8 := text.toList.map (·.toNat.toUInt8)

def Command.ofWords (name : String) (args : List String) : Command := ⟨ascii name, args.map ascii⟩

/-! ## Scanning -/

theorem strchr_append {c : UInt8} {s : List UInt8} (h : ∀ b ∈ s, b ≠ c ∧ b ≠ 0)
    (rest : List UInt8) : strchr c (s ++ c :: rest) = some (c :: rest) := by
  induction s with
  | nil => simp [strchr]
  | cons b s ih =>
      obtain ⟨hc, h0⟩ := h b (by simp)
      rw [List.cons_append, strchr, if_neg hc, if_neg h0, ih fun d hd ↦ h d (by simp [hd])]

theorem foldl_decimal (n : ℕ) :
    (decimal n).foldl (fun (v : ℤ) c ↦ v * 10 + ((c.toNat : ℤ) - 48)) 0 = n := by
  have hvalue := foldl_digits (fun _ hc ↦ digits_of_mem_decimal (n := n) hc) 0
  rwa [valueFrom_decimal] at hvalue

theorem takeWhile_decimal (n : ℕ) (rest : List UInt8) :
    (decimal n ++ cr :: rest).takeWhile (fun c ↦ decide (48 ≤ c ∧ c < 58)) = decimal n :=
  takeWhile_digits_cr (fun _ ↦ digits_of_mem_decimal) rest

theorem strtol_decimal (n : ℕ) (rest : List UInt8) :
    strtol (decimal n ++ cr :: rest) = min (2 ^ 63 - 1) (n : ℤ) := by
  cases hd : decimal n with
  | nil => exact absurd hd (decimal_ne_nil n)
  | cons d ds =>
      obtain ⟨hlo, hhi⟩ := digits_of_mem_decimal (n := n) (c := d) (by simp [hd])
      have hspace : ¬(d = 32 ∨ 9 ≤ d ∧ d ≤ 13) := by
        rintro (rfl | ⟨-, hle⟩)
        · exact absurd hlo (by decide)
        · exact absurd (UInt8.le_trans hlo hle) (by decide)
      have hminus : d ≠ 45 := by
        rintro rfl
        exact absurd hlo (by decide)
      have hplus : d ≠ 43 := by
        rintro rfl
        exact absurd hlo (by decide)
      have hdigits := takeWhile_decimal n rest
      have hvalue := foldl_decimal n
      rw [hd] at hdigits hvalue
      rw [List.cons_append] at hdigits ⊢
      simp only [strtol, List.dropWhile_cons, hspace, decide_false, Bool.false_eq_true, if_false,
        if_neg hminus, if_neg hplus, hdigits, hvalue]
      omega

theorem no_dollar {c : UInt8} {n : ℕ} (h : c ∈ decimal n) : c ≠ 36 ∧ c ≠ cr ∧ c ≠ 0 := by
  obtain ⟨hlo, -⟩ := digits_of_mem_decimal h
  refine ⟨?_, ?_, ?_⟩ <;>
  · rintro rfl
    exact absurd hlo (by decide)

/-- The length of an argument after `(int)strtol(…)`. -/
def parsedLength (arg : List UInt8) : ℤ := wrap32 (min (2 ^ 63 - 1) (arg.length : ℤ))

theorem parsedLength_of_lt {arg : List UInt8} (h : arg.length < 2 ^ 31) :
    parsedLength arg = arg.length := by
  rw [parsedLength, min_eq_right (by omega), wrap32_of_lt (by omega) (by omega)]

/-- At an argument, `nextArgument` goes by the length before it. -/
theorem nextArgument_length (arg rest : List UInt8) :
    nextArgument (bulk arg ++ rest) =
      let str := arg ++ crlf ++ rest
      if 0 ≤ parsedLength arg ∧ (parsedLength arg).toNat + 2 ≤ str.length then
        some (.found str (parsedLength arg).toNat (str.drop ((parsedLength arg).toNat + 2)))
      else none := by
  have hbulk : bulk arg ++ rest =
      36 :: (decimal arg.length ++ cr :: (lf :: (arg ++ crlf ++ rest))) := by
    simp [bulk, crlf]
  have hline : strchr cr (36 :: (decimal arg.length ++ cr :: (lf :: (arg ++ crlf ++ rest)))) =
      some (cr :: (lf :: (arg ++ crlf ++ rest))) := by
    rw [← List.cons_append]
    refine strchr_append ?_ _
    intro b hb
    rcases List.mem_cons.mp hb with rfl | hb
    · decide
    · exact ⟨(no_dollar hb).2.1, (no_dollar hb).2.2⟩
  have hlen : wrap32 (strtol (decimal arg.length ++ cr :: (lf :: (arg ++ crlf ++ rest)))) =
      parsedLength arg := congrArg wrap32 (strtol_decimal _ _)
  rw [hbulk, nextArgument, show strchr 36 (36 :: _) = some (36 :: _) from if_pos rfl]
  simp only [hline, List.drop_succ_cons, List.drop_zero, hlen]

/-- At an argument, `nextArgument` finds it and goes to what follows it. -/
theorem nextArgument_bulk {arg : List UInt8} (h : arg.length < 2 ^ 31) (rest : List UInt8) :
    nextArgument (bulk arg ++ rest) =
      some (.found (arg ++ crlf ++ rest) arg.length rest) := by
  have hfit : (0 : ℤ) ≤ (arg.length : ℤ) ∧ arg.length + 2 ≤ (arg ++ crlf ++ rest).length := by
    simp [crlf]
  have hdrop : (arg ++ crlf ++ rest).drop (arg.length + 2) = rest := by
    rw [show arg.length + 2 = (arg ++ crlf).length by simp [crlf], List.drop_left]
  rw [nextArgument_length]
  simp only [parsedLength_of_lt h, Int.toNat_natCast, if_pos hfit, hdrop]

/-- The scan of a whole command starts at its first argument. -/
theorem nextArgument_format (name : List UInt8) (args : List (List UInt8)) :
    nextArgument (redisFormatCommandArgv (name :: args)) =
      nextArgument (bulk name ++ args.flatMap bulk) := by
  have hhead : strchr 36 (redisFormatCommandArgv (name :: args)) =
      some (bulk name ++ args.flatMap bulk) := by
    have hsplit : redisFormatCommandArgv (name :: args) =
        (42 :: (decimal (name :: args).length ++ crlf)) ++
          36 :: ((decimal name.length ++ crlf ++ name ++ crlf) ++ args.flatMap bulk) := by
      simp [redisFormatCommandArgv, bulk]
    rw [hsplit, strchr_append]
    · simp [bulk]
    · intro b hb
      simp only [List.mem_cons, List.mem_append, crlf, List.not_mem_nil, or_false] at hb
      rcases hb with rfl | hb | rfl | rfl
      · decide
      · exact ⟨(no_dollar hb).1, (no_dollar hb).2.2⟩
      · decide
      · decide
  have hsame : strchr 36 (bulk name ++ args.flatMap bulk) =
      some (bulk name ++ args.flatMap bulk) := by
    rw [bulk, List.cons_append, strchr, if_pos rfl]
  rw [nextArgument, nextArgument, hhead, hsame]

theorem argumentsFor_bulks {args : List (List UInt8)} (h : ∀ arg ∈ args, arg.length < 2 ^ 31)
    (fuel : ℕ) (hfuel : args.length < fuel) :
    argumentsFor fuel (args.flatMap bulk) = some args := by
  induction args generalizing fuel with
  | nil =>
      obtain ⟨fuel, rfl⟩ : ∃ k, fuel = k + 1 := ⟨fuel - 1, by omega⟩
      rfl
  | cons arg args ih =>
      obtain ⟨fuel, rfl⟩ : ∃ k, fuel = k + 1 := ⟨fuel - 1, by simp at hfuel; omega⟩
      have hrest := ih (fun a ha ↦ h a (by simp [ha])) fuel (by simpa using hfuel)
      rw [List.flatMap_cons, argumentsFor, nextArgument_bulk (h arg (by simp))]
      simp only [hrest, Option.map_some]
      rw [List.append_assoc, List.take_left]

theorem length_le_flatMap_bulk (args : List (List UInt8)) :
    args.length ≤ (args.flatMap bulk).length := by
  induction args with
  | nil => simp
  | cons arg args ih =>
      simp only [List.flatMap_cons, List.length_append, List.length_cons, bulk]
      omega

/-! ## Commands one after the other -/

theorem decimal_append_inj {n m : ℕ} {x y : List UInt8}
    (h : decimal n ++ cr :: x = decimal m ++ cr :: y) : n = m ∧ x = y := by
  have hdigits : decimal n = decimal m := by
    rw [← takeWhile_decimal n x, h, takeWhile_decimal]
  rw [hdigits] at h
  exact ⟨decimal_injective hdigits, (List.cons.inj (List.append_cancel_left h)).2⟩

theorem bulk_append_inj {a b x y : List UInt8} (h : bulk a ++ x = bulk b ++ y) :
    a = b ∧ x = y := by
  simp only [bulk, crlf, List.cons_append, List.append_assoc, List.nil_append,
    List.cons.injEq, true_and] at h
  obtain ⟨hlen, hrest⟩ := decimal_append_inj h
  obtain ⟨hab, hxy⟩ := List.append_inj (List.cons.inj hrest).2 hlen
  exact ⟨hab, by simpa using hxy⟩

theorem flatMap_bulk_inj {as bs : List (List UInt8)} {x y : List UInt8}
    (hlen : as.length = bs.length) (h : as.flatMap bulk ++ x = bs.flatMap bulk ++ y) :
    as = bs ∧ x = y := by
  induction as generalizing bs with
  | nil =>
      cases bs with
      | nil => exact ⟨rfl, h⟩
      | cons b bs => simp at hlen
  | cons a as ih =>
      cases bs with
      | nil => simp at hlen
      | cons b bs =>
          simp only [List.flatMap_cons, List.append_assoc] at h
          obtain ⟨rfl, hrest⟩ := bulk_append_inj h
          obtain ⟨rfl, hxy⟩ := ih (by simpa using hlen) hrest
          exact ⟨rfl, hxy⟩

/-- A stream starts with at most one command. -/
theorem bytes_append_inj {c d : Command} {x y : List UInt8}
    (h : c.bytes ++ x = d.bytes ++ y) : c = d ∧ x = y := by
  simp only [Command.bytes, redisFormatCommandArgv, crlf, List.cons_append, List.append_assoc,
    List.nil_append, List.cons.injEq, true_and] at h
  obtain ⟨hlen, hrest⟩ := decimal_append_inj h
  obtain ⟨hargv, hxy⟩ := flatMap_bulk_inj hlen (List.cons.inj hrest).2
  obtain ⟨hname, hargs⟩ := List.cons.inj hargv
  cases c
  cases d
  obtain rfl : _ = _ := hname
  obtain rfl : _ = _ := hargs
  exact ⟨rfl, hxy⟩

/-! ## The kind of a command -/

/-- The comparison with a name, once the name has been cut out. -/
theorem hasPrefixNoCase_line {text : String} {name : List UInt8}
    (h : name.map tolower = ascii text) (rest : List UInt8) :
    hasPrefixNoCase (nameLine text) (name ++ crlf ++ rest) = true := by
  have hlen : (nameLine text).length = (name ++ crlf).length := by
    have := congrArg List.length h
    simp only [List.length_map] at this
    simp [nameLine, this, ascii]
  have hcrlf : crlf.map tolower = crlf := by decide
  rw [hasPrefixNoCase, hlen, List.take_left, List.map_append, h, hcrlf]
  simp [nameLine, ascii]

/-- The words of the publish-subscribe commands. -/
def pubsubWord (pattern : Bool) (word : String) : List UInt8 :=
  if pattern then 112 :: ascii word else ascii word

/-- The name of a publish-subscribe command, without the `p` of the pattern
variant, is what the source compares. -/
theorem commandKind_word {pattern : Bool} {word : String} {name : List UInt8}
    (args : List (List UInt8)) (hname : name.map tolower = pubsubWord pattern word)
    (hlen : (ascii word).length < 100) {c : UInt8} (hc : (ascii word).head? = some c)
    (hp : c ≠ 112) :
    ∃ stripped, stripped.map tolower = ascii word ∧
      commandKind (redisFormatCommandArgv (name :: args)) =
        let p := args.flatMap bulk
        let cstr := stripped ++ crlf ++ p
        if p.head? = some 36 ∧ hasPrefixNoCase (nameLine "subscribe") cstr then
          (argumentsFor (p.length + 1) p).map (.subscribe pattern)
        else if hasPrefixNoCase (nameLine "unsubscribe") cstr then some .unsubscribe
        else if hasPrefixNoCase (nameLine "monitor") cstr then some .monitor
        else some .regular := by
  have hnamelen : name.length < 2 ^ 31 := by
    have hl := congrArg List.length hname
    rw [List.length_map, pubsubWord] at hl
    split at hl
    · rw [List.length_cons] at hl
      omega
    · omega
  have harg := nextArgument_bulk hnamelen (args.flatMap bulk)
  unfold commandKind
  rw [nextArgument_format, harg]
  cases name with
  | nil => cases pattern <;> simp_all [pubsubWord]
  | cons d name =>
      cases pattern with
      | false =>
          refine ⟨d :: name, hname, ?_⟩
          have hd : tolower d ≠ 112 := by
            rw [pubsubWord, if_neg (by decide)] at hname
            rw [← hname, List.map_cons, List.head?_cons] at hc
            exact Option.some.inj hc ▸ hp
          simp [hd]
      | true =>
          rw [pubsubWord, if_pos rfl, List.map_cons, List.cons.injEq] at hname
          refine ⟨name, hname.2, ?_⟩
          simp [hname.1]

/-- A command that names something to subscribe to is taken for that. -/
theorem commandKind_subscribe {pattern : Bool} {name : List UInt8} {args : List (List UInt8)}
    (hname : name.map tolower = pubsubWord pattern "subscribe") (hargs : args ≠ [])
    (h : ∀ arg ∈ args, arg.length < 2 ^ 31) :
    commandKind (redisFormatCommandArgv (name :: args)) = some (.subscribe pattern args) := by
  obtain ⟨stripped, hstripped, hkind⟩ :=
    commandKind_word args hname (by decide) (c := 115) (by decide) (by decide)
  have hnext : (args.flatMap bulk).head? = some 36 := by
    cases args with
    | nil => exact (hargs rfl).elim
    | cons arg args => rfl
  have hfuel := length_le_flatMap_bulk args
  have hall := argumentsFor_bulks h ((args.flatMap bulk).length + 1) (by omega)
  rw [hkind]
  simp only [hnext, hasPrefixNoCase_line hstripped, and_self, if_true, hall, Option.map_some]

theorem commandKind_unsubscribe {pattern : Bool} {name : List UInt8} {args : List (List UInt8)}
    (hname : name.map tolower = pubsubWord pattern "unsubscribe") :
    commandKind (redisFormatCommandArgv (name :: args)) = some .unsubscribe := by
  obtain ⟨stripped, hstripped, hkind⟩ :=
    commandKind_word args hname (by decide) (c := 117) (by decide) (by decide)
  have hother : hasPrefixNoCase (nameLine "subscribe") (stripped ++ crlf ++ args.flatMap bulk) =
      false := by
    cases stripped with
    | nil => exact absurd hstripped (by decide)
    | cons d stripped =>
        have hd : tolower d = 117 := (List.cons.inj hstripped).1
        have hs : nameLine "subscribe" = 115 :: nameLine "ubscribe" := by decide
        simp [hs, hasPrefixNoCase, hd]
  rw [hkind]
  simp only [hother, hasPrefixNoCase_line hstripped, Bool.false_eq_true, and_false, if_false,
    if_true]

end MuxHiredis
