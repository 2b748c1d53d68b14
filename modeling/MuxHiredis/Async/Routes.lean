import MuxHiredis.Async.Subscribe

/-!
# Which command is appended

`__redisAsyncCommand` finds out by the name of a command how its replies will be
routed.  The comparison with a name goes up to a line end, and the length of the
name does not enter it.
-/

namespace MuxHiredis

/-! ## Words before a line end -/

/-- A word without `a`, with `a` and `b` behind it, stands at the start of `u`, `a`
and `b` when it is `u`, or when it stands at the start of `u`. -/
theorem line_prefix_iff {α : Type*} {w : List α} {a b : α} (ha : a ∉ w) (hab : a ≠ b)
    (u rest : List α) :
    w ++ [a, b] <+: u ++ [a, b] ++ rest ↔ u = w ∨ w ++ [a, b] <+: u := by
  induction w generalizing u with
  | nil =>
      cases u with
      | nil => simp
      | cons c u =>
          cases u with
          | nil =>
              have hba : b ≠ a := hab.symm
              simp [List.cons_prefix_cons, hba]
          | cons d u => simp [List.cons_prefix_cons]
  | cons c w ih =>
      obtain ⟨hac, haw⟩ := List.ne_and_not_mem_of_not_mem_cons ha
      cases u with
      | nil => simp [List.cons_prefix_cons, hac.symm]
      | cons d u =>
          have htail := ih haw u
          simp only [List.cons_append, List.cons_prefix_cons, htail, List.cons.injEq, and_or_left]
          exact or_congr_left (and_congr_left fun _ ↦ eq_comm)

theorem hasPrefixNoCase_iff (text s : List UInt8) :
    hasPrefixNoCase text s = true ↔ text <+: s.map tolower := by
  rw [hasPrefixNoCase, decide_eq_true_iff, List.map_take, List.prefix_iff_eq_take, eq_comm]

/-- The bytes are `word`, in any case. -/
def Spells (name : List UInt8) (word : String) : Prop := name.map tolower = ascii word

instance (name : List UInt8) (word : String) : Decidable (Spells name word) :=
  inferInstanceAs (Decidable (_ = _))

/-- The bytes start with `word` and a line end. -/
def Continues (name : List UInt8) (word : String) : Prop := nameLine word <+: name.map tolower

theorem Spells.length_eq {name : List UInt8} {word : String} (h : Spells name word) :
    name.length = (ascii word).length := by
  have hlen := congrArg List.length h
  rwa [List.length_map] at hlen

theorem Spells.not_continues {name : List UInt8} {word : String} (h : Spells name word) :
    ¬Continues name word := by
  intro hprefix
  have hle := hprefix.length_le
  rw [List.length_map, h.length_eq, nameLine, ← ascii, List.length_append] at hle
  simp [crlf] at hle

theorem hasPrefixNoCase_line_iff {word : String} (hword : cr ∉ ascii word)
    (name rest : List UInt8) :
    hasPrefixNoCase (nameLine word) (name ++ crlf ++ rest) = true ↔
      Spells name word ∨ Continues name word := by
  have hcrlf : crlf.map tolower = crlf := by decide
  rw [hasPrefixNoCase_iff, List.map_append, List.map_append, hcrlf]
  exact line_prefix_iff hword (by decide) _ _

/-! ## Routes -/

/-- Where `__redisAsyncCommand` goes for a command; the arguments of a subscription
start at `p`. -/
inductive Route where
  | subscribe (pattern : Bool) (p : List UInt8)
  | unsubscribe
  | monitor
  | regular
  deriving DecidableEq, Repr

/-- The name that is compared, without a leading `p`. -/
def stripped (cstr : List UInt8) : List UInt8 :=
  if cstr.head?.map tolower = some 112 then cstr.drop 1 else cstr

def route (cmd : List UInt8) : Option Route :=
  match nextArgument cmd with
  | none | some .null => none
  | some (.found cstr _ p) =>
      let hasnext := p.head? = some 36
      let pvariant : Bool := decide (cstr.head?.map tolower = some 112)
      if hasnext ∧ hasPrefixNoCase (nameLine "subscribe") (stripped cstr) then
        some (.subscribe pvariant p)
      else if hasPrefixNoCase (nameLine "unsubscribe") (stripped cstr) then some .unsubscribe
      else if hasPrefixNoCase (nameLine "monitor") (stripped cstr) then some .monitor
      else some .regular

/-- What is registered on a route. -/
def Route.kind : Route → Option CommandKind
  | .subscribe pattern p => (argumentsFor (p.length + 1) p).map (.subscribe pattern)
  | .unsubscribe => some .unsubscribe
  | .monitor => some .monitor
  | .regular => some .regular

/-- A command is what its route says. -/
theorem commandKind_eq (cmd : List UInt8) : commandKind cmd = (route cmd).bind Route.kind := by
  unfold commandKind route
  cases nextArgument cmd with
  | none => rfl
  | some found =>
      cases found with
      | null => rfl
      | found cstr len p =>
          have hstripped : (if cstr.head?.map tolower = some 112 then cstr.drop 1 else cstr) =
              stripped cstr := rfl
          simp only [decide_eq_true_eq, hstripped]
          split
          · rfl
          · split
            · rfl
            · split <;> rfl

/-! ## The route of a formatted command -/

/-- `p[0] == '$'` at the place that `nextArgument` finds behind the name. -/
def HasNext (name : List UInt8) (args : List (List UInt8)) : Prop :=
  ((name ++ crlf ++ args.flatMap bulk).drop ((parsedLength name).toNat + 2)).head? = some 36

theorem toNat_parsedLength_le {arg : List UInt8} (h : 0 ≤ parsedLength arg) :
    (parsedLength arg).toNat ≤ arg.length := by
  have hmod : parsedLength arg = (min (2 ^ 63 - 1) (arg.length : ℤ)).bmod (2 ^ 32) := rfl
  rw [Int.bmod_def] at hmod
  split at hmod <;> omega

/-- Behind a name of an ordinary length are the other arguments. -/
theorem hasNext_iff {name : List UInt8} (h : name.length < 2 ^ 31) (args : List (List UInt8)) :
    HasNext name args ↔ args ≠ [] := by
  have hdrop : (name ++ crlf ++ args.flatMap bulk).drop (name.length + 2) = args.flatMap bulk := by
    rw [show name.length + 2 = (name ++ crlf).length by simp [crlf], List.drop_left]
  rw [HasNext, parsedLength_of_lt h, Int.toNat_natCast, hdrop]
  cases args with
  | nil => simp
  | cons arg args => simp [bulk]

theorem stripped_line (name rest : List UInt8) :
    stripped (name ++ crlf ++ rest) = stripped name ++ crlf ++ rest := by
  cases name with
  | nil => simp [stripped, crlf, show tolower cr ≠ 112 by decide]
  | cons c name =>
      unfold stripped
      simp only [List.cons_append, List.head?_cons, List.drop_succ_cons, List.drop_zero]
      split <;> rfl

/-- Without a leading `p` the name spells `word`, so it does, or it does behind a
`p`. -/
theorem spells_stripped_iff {word : String} (hword : (ascii word).head? ≠ some 112)
    (name : List UInt8) :
    Spells (stripped name) word ↔ Spells name word ∨ name.map tolower = 112 :: ascii word := by
  unfold Spells stripped
  split
  · rename_i hp
    obtain ⟨c, name, rfl⟩ : ∃ c rest, name = c :: rest := by
      cases name with
      | nil => simp at hp
      | cons c rest => exact ⟨c, rest, rfl⟩
    have hc : tolower c = 112 := Option.some.inj hp
    rw [List.map_cons, hc, List.drop_succ_cons, List.drop_zero, List.cons.injEq]
    constructor
    · exact fun h ↦ Or.inr ⟨rfl, h⟩
    · rintro (h | ⟨-, h⟩)
      · exact absurd (congrArg List.head? h).symm hword
      · exact h
  · rename_i hp
    constructor
    · exact Or.inl
    · rintro (h | h)
      · exact h
      · rw [← List.head?_map, h] at hp
        exact absurd rfl hp

section Format

variable {name : List UInt8} (args : List (List UInt8))

/-- The name without a leading `p` spells `word`, or goes on after it behind a line
end. -/
def TakenFor (name : List UInt8) (word : String) : Prop :=
  Spells (stripped name) word ∨ Continues (stripped name) word

theorem route_eq_none (hlen : ¬0 ≤ parsedLength name) :
    route (redisFormatCommandArgv (name :: args)) = none := by
  rw [route, nextArgument_format, nextArgument_length]
  simp only [hlen, false_and, if_false]

theorem route_format (hlen : 0 ≤ parsedLength name) :
    ∃ p rest, (p.head? = some 36 ↔ HasNext name args) ∧
      route (redisFormatCommandArgv (name :: args)) =
        let named (word : String) :=
          hasPrefixNoCase (nameLine word) (stripped name ++ crlf ++ rest)
        if p.head? = some 36 ∧ named "subscribe" then
          some (.subscribe (decide ((name ++ crlf ++ rest).head?.map tolower = some 112)) p)
        else if named "unsubscribe" then some .unsubscribe
        else if named "monitor" then some .monitor
        else some .regular := by
  have hfit : 0 ≤ parsedLength name ∧ (parsedLength name).toNat + 2 ≤
      (name ++ crlf ++ args.flatMap bulk).length := by
    have hle := toNat_parsedLength_le hlen
    simp only [List.length_append, crlf, List.length_cons, List.length_nil]
    omega
  refine ⟨(name ++ crlf ++ args.flatMap bulk).drop ((parsedLength name).toNat + 2),
    args.flatMap bulk, Iff.rfl, ?_⟩
  rw [route, nextArgument_format, nextArgument_length]
  simp only [if_pos hfit, stripped_line]

/-- A name is taken for one word at most, by its first letter. -/
theorem TakenFor.head? {word : String} (h : TakenFor name word) (hword : ascii word ≠ []) :
    ((stripped name).map tolower).head? = (ascii word).head? := by
  rcases h with h | ⟨rest, h⟩
  · exact congrArg List.head? h
  · obtain ⟨c, tail, hc⟩ := List.exists_cons_of_ne_nil hword
    rw [← h, nameLine, ← ascii, hc]
    rfl

theorem TakenFor.exclusive {word word' : String} (h : TakenFor name word)
    (hne : ascii word ≠ [] ∧ ascii word' ≠ [] ∧ (ascii word).head? ≠ (ascii word').head?) :
    ¬TakenFor name word' :=
  fun h' ↦ hne.2.2 ((h.head? hne.1).symm.trans (h'.head? hne.2.1))

/-- The routes by what the name is taken for. -/
theorem route_cases (hlen : 0 ≤ parsedLength name) :
    (HasNext name args ∧ TakenFor name "subscribe" ∧
        ∃ pattern p, route (redisFormatCommandArgv (name :: args)) =
          some (.subscribe pattern p)) ∨
      (TakenFor name "unsubscribe" ∧
        route (redisFormatCommandArgv (name :: args)) = some .unsubscribe) ∨
      (TakenFor name "monitor" ∧
        route (redisFormatCommandArgv (name :: args)) = some .monitor) ∨
      (¬(HasNext name args ∧ TakenFor name "subscribe") ∧ ¬TakenFor name "unsubscribe" ∧
        ¬TakenFor name "monitor" ∧
        route (redisFormatCommandArgv (name :: args)) = some .regular) := by
  obtain ⟨p, rest, hnext, hroute⟩ := route_format args hlen
  have hnamed : ∀ {word}, cr ∉ ascii word →
      (hasPrefixNoCase (nameLine word) (stripped name ++ crlf ++ rest) = true ↔
        TakenFor name word) := fun hword ↦ hasPrefixNoCase_line_iff hword _ _
  have hsubscribe := hnamed (show cr ∉ ascii "subscribe" by decide)
  have hunsubscribe := hnamed (show cr ∉ ascii "unsubscribe" by decide)
  have hmonitor := hnamed (show cr ∉ ascii "monitor" by decide)
  rw [← hnext, ← hsubscribe, ← hunsubscribe, ← hmonitor]
  dsimp only at hroute
  split at hroute
  · rename_i h
    exact Or.inl ⟨h.1, h.2, _, _, hroute⟩
  · rename_i hs
    split at hroute
    · rename_i h
      exact Or.inr (Or.inl ⟨h, hroute⟩)
    · rename_i hu
      split at hroute
      · rename_i h
        exact Or.inr (Or.inr (Or.inl ⟨h, hroute⟩))
      · rename_i hm
        exact Or.inr (Or.inr (Or.inr ⟨hs, hu, hm, hroute⟩))

theorem route_subscribe_iff (hlen : 0 ≤ parsedLength name) :
    (∃ pattern p, route (redisFormatCommandArgv (name :: args)) =
        some (.subscribe pattern p)) ↔ HasNext name args ∧ TakenFor name "subscribe" := by
  rcases route_cases args hlen with
    ⟨hnext, h, hroute⟩ | ⟨h, hroute⟩ | ⟨h, hroute⟩ | ⟨h, -, -, hroute⟩
  · exact iff_of_true hroute ⟨hnext, h⟩
  · exact iff_of_false (by simp [hroute]) fun hs ↦ h.exclusive (by decide) hs.2
  · exact iff_of_false (by simp [hroute]) fun hs ↦ h.exclusive (by decide) hs.2
  · exact iff_of_false (by simp [hroute]) h

theorem route_unsubscribe_iff (hlen : 0 ≤ parsedLength name) :
    route (redisFormatCommandArgv (name :: args)) = some .unsubscribe ↔
      TakenFor name "unsubscribe" := by
  rcases route_cases args hlen with
    ⟨-, h, pattern, p, hroute⟩ | ⟨h, hroute⟩ | ⟨h, hroute⟩ | ⟨-, h, -, hroute⟩
  · exact iff_of_false (by simp [hroute]) (h.exclusive (by decide))
  · exact iff_of_true hroute h
  · exact iff_of_false (by simp [hroute]) (h.exclusive (by decide))
  · exact iff_of_false (by simp [hroute]) h

theorem route_monitor_iff (hlen : 0 ≤ parsedLength name) :
    route (redisFormatCommandArgv (name :: args)) = some .monitor ↔ TakenFor name "monitor" := by
  rcases route_cases args hlen with
    ⟨-, h, pattern, p, hroute⟩ | ⟨h, hroute⟩ | ⟨h, hroute⟩ | ⟨-, -, h, hroute⟩
  · exact iff_of_false (by simp [hroute]) (h.exclusive (by decide))
  · exact iff_of_false (by simp [hroute]) (h.exclusive (by decide))
  · exact iff_of_true hroute h
  · exact iff_of_false (by simp [hroute]) h

theorem route_regular (hlen : 0 ≤ parsedLength name)
    (hsubscribe : ¬(HasNext name args ∧ TakenFor name "subscribe"))
    (hunsubscribe : ¬TakenFor name "unsubscribe") (hmonitor : ¬TakenFor name "monitor") :
    route (redisFormatCommandArgv (name :: args)) = some .regular := by
  rcases route_cases args hlen with ⟨hnext, h, -⟩ | ⟨h, -⟩ | ⟨h, -⟩ | ⟨-, -, -, hroute⟩
  · exact (hsubscribe ⟨hnext, h⟩).elim
  · exact (hunsubscribe h).elim
  · exact (hmonitor h).elim
  · exact hroute

end Format

/-! ## Treatment by name -/

/-- From `ac` to `ac'` one callback was queued, for an ordinary command. -/
structure Queues (cb : RedisCallback) (ac ac' : AsyncContext) : Prop where
  replies : ac'.replies = if ac.flags.subscribed then ac.replies else ac.replies ++ [cb]
  invalid : ac'.invalid = if ac.flags.subscribed then ac.invalid ++ [cb] else ac.invalid
  channels : ac'.channels = ac.channels
  patterns : ac'.patterns = ac.patterns
  flags : ac'.flags = ac.flags

/-- An ordinary command is accepted. -/
theorem asyncCommand_regular {ac : AsyncContext} (hopen : ac.flags.closing = false)
    {cmd : List UInt8} (hroute : route cmd = some .regular) (fn : Option ℕ) (privdata : ℕ) :
    ∃ ac', ac.asyncCommand fn privdata cmd = some (.ok, ac') ∧ Queues ⟨fn, privdata⟩ ac ac' := by
  have hkind : commandKind cmd = some .regular := by rw [commandKind_eq, hroute]; rfl
  have hregister : ac.registerCallback .regular ⟨fn, privdata⟩ = some { ac with
      replies := if ac.flags.subscribed then ac.replies else ac.replies ++ [⟨fn, privdata⟩]
      invalid := if ac.flags.subscribed then ac.invalid ++ [⟨fn, privdata⟩] else ac.invalid } := by
    cases hsubscribed : ac.flags.subscribed <;> simp [AsyncContext.registerCallback, hsubscribed]
  rw [AsyncContext.asyncCommand, if_neg (by simp [hopen]), hkind, Option.map_some, hregister]
  exact ⟨_, rfl, rfl, rfl, rfl, rfl, rfl⟩

/-- What a route does to the flags. -/
def Route.flags (f : Flags) : Route → Flags
  | .subscribe _ _ => { f with subscribed := true }
  | .monitor => { f with monitoring := true }
  | .unsubscribe | .regular => f

/-- A command is treated by its name and by whether it has arguments. -/
structure Treated (name : List UInt8) (args : List (List UInt8)) : Prop where
  subscribe : (∃ pattern p, route (redisFormatCommandArgv (name :: args)) =
      some (.subscribe pattern p)) ↔
    (Spells name "subscribe" ∨ Spells name "psubscribe") ∧ args ≠ []
  unsubscribe : route (redisFormatCommandArgv (name :: args)) = some .unsubscribe ↔
    Spells name "unsubscribe" ∨ Spells name "punsubscribe"
  monitor : route (redisFormatCommandArgv (name :: args)) = some .monitor ↔
    Spells name "monitor"
  regular : ¬((Spells name "subscribe" ∨ Spells name "psubscribe") ∧ args ≠ []) →
    ¬(Spells name "unsubscribe" ∨ Spells name "punsubscribe") → ¬Spells name "monitor" →
    ∀ ac : AsyncContext, ac.flags.closing = false → ∀ fn privdata, ∃ ac',
      ac.asyncCommand fn privdata (redisFormatCommandArgv (name :: args)) = some (.ok, ac') ∧
        Queues ⟨fn, privdata⟩ ac ac'

/-- A name that the source does not take for another one. -/
structure Plain (name : List UInt8) (args : List (List UInt8)) : Prop where
  length : 0 ≤ parsedLength name
  not_pmonitor : ¬Spells name "pmonitor"
  not_subscribe : HasNext name args → ¬Continues (stripped name) "subscribe"
  not_unsubscribe : ¬Continues (stripped name) "unsubscribe"
  not_monitor : ¬Continues (stripped name) "monitor"

section Treated

variable {name : List UInt8} {args : List (List UInt8)}

/-- A name that spells one of the words has an ordinary length. -/
theorem hasNext_iff_of_spells {word : String} (h : Spells name word)
    (hword : (ascii word).length < 2 ^ 31) : HasNext name args ↔ args ≠ [] :=
  hasNext_iff (h.length_eq ▸ hword) args

theorem spells_subscribe_iff :
    Spells (stripped name) "subscribe" ↔ Spells name "subscribe" ∨ Spells name "psubscribe" :=
  spells_stripped_iff (by decide) name

theorem spells_unsubscribe_iff :
    Spells (stripped name) "unsubscribe" ↔
      Spells name "unsubscribe" ∨ Spells name "punsubscribe" :=
  spells_stripped_iff (by decide) name

theorem spells_monitor_iff :
    Spells (stripped name) "monitor" ↔ Spells name "monitor" ∨ Spells name "pmonitor" :=
  spells_stripped_iff (by decide) name

theorem hasNext_subscribe_iff (h : Spells name "subscribe" ∨ Spells name "psubscribe") :
    HasNext name args ↔ args ≠ [] := by
  rcases h with h | h
  · exact hasNext_iff_of_spells h (by decide)
  · exact hasNext_iff_of_spells h (by decide)

theorem Plain.treated (h : Plain name args) : Treated name args := by
  have hsubscribe : HasNext name args ∧ TakenFor name "subscribe" ↔
      (Spells name "subscribe" ∨ Spells name "psubscribe") ∧ args ≠ [] := by
    constructor
    · rintro ⟨hnext, htaken⟩
      have hspells := spells_subscribe_iff.mp (htaken.resolve_right (h.not_subscribe hnext))
      exact ⟨hspells, (hasNext_subscribe_iff hspells).mp hnext⟩
    · rintro ⟨hspells, hargs⟩
      exact ⟨(hasNext_subscribe_iff hspells).mpr hargs,
        Or.inl (spells_subscribe_iff.mpr hspells)⟩
  have hunsubscribe : TakenFor name "unsubscribe" ↔
      Spells name "unsubscribe" ∨ Spells name "punsubscribe" :=
    (or_iff_left h.not_unsubscribe).trans spells_unsubscribe_iff
  have hmonitor : TakenFor name "monitor" ↔ Spells name "monitor" :=
    ((or_iff_left h.not_monitor).trans spells_monitor_iff).trans (or_iff_left h.not_pmonitor)
  refine ⟨(route_subscribe_iff args h.length).trans hsubscribe,
    (route_unsubscribe_iff args h.length).trans hunsubscribe,
    (route_monitor_iff args h.length).trans hmonitor, fun hs hu hm ac hopen fn privdata ↦ ?_⟩
  refine asyncCommand_regular hopen (route_regular args h.length ?_ ?_ ?_) fn privdata
  · exact fun htaken ↦ hs (hsubscribe.mp htaken)
  · exact fun htaken ↦ hu (hunsubscribe.mp htaken)
  · exact fun htaken ↦ hm (hmonitor.mp htaken)

/-- A name whose length does not survive the `int` has no treatment. -/
theorem Treated.length (h : Treated name args) : 0 ≤ parsedLength name := by
  by_contra hlen
  have hlong : 2 ^ 31 ≤ name.length := by
    by_contra hshort
    exact hlen (parsedLength_of_lt (Nat.lt_of_not_le hshort) ▸ Int.natCast_nonneg _)
  have hspells : ∀ {word}, (ascii word).length < 2 ^ 31 → ¬Spells name word := by
    intro word hword hspells
    have heq := hspells.length_eq
    omega
  have hnone : ∀ w w', (ascii w).length < 2 ^ 31 → (ascii w').length < 2 ^ 31 →
      ¬(Spells name w ∨ Spells name w') :=
    fun w w' hw hw' ↦ not_or.mpr ⟨hspells hw, hspells hw'⟩
  obtain ⟨ac', hissue, -⟩ := h.regular
    (fun hs ↦ hnone "subscribe" "psubscribe" (by decide) (by decide) hs.1)
    (hnone "unsubscribe" "punsubscribe" (by decide) (by decide)) (hspells (by decide))
    (.redisAsyncInitialize none false false) rfl none 0
  rw [AsyncContext.asyncCommand, if_neg (by decide), commandKind_eq,
    route_eq_none args hlen] at hissue
  cases hissue

theorem Treated.plain (h : Treated name args) : Plain name args := by
  have hlen := h.length
  refine ⟨hlen, fun hp ↦ ?_, fun hnext hc ↦ ?_, fun hc ↦ ?_, fun hc ↦ ?_⟩
  · have hspells := h.monitor.mp
      ((route_monitor_iff args hlen).mpr (Or.inl (spells_monitor_iff.mpr (Or.inr hp))))
    exact absurd (hspells.symm.trans hp) (by decide)
  · have hspells := h.subscribe.mp ((route_subscribe_iff args hlen).mpr ⟨hnext, Or.inr hc⟩)
    exact (spells_subscribe_iff.mpr hspells.1).not_continues hc
  · have hspells := h.unsubscribe.mp ((route_unsubscribe_iff args hlen).mpr (Or.inr hc))
    exact (spells_unsubscribe_iff.mpr hspells).not_continues hc
  · have hspells := h.monitor.mp ((route_monitor_iff args hlen).mpr (Or.inr hc))
    exact (spells_monitor_iff.mpr (Or.inl hspells)).not_continues hc

/-- A command is treated by the whole of its name exactly when the name is
plain. -/
theorem treated_iff : Treated name args ↔ Plain name args := ⟨Treated.plain, Plain.treated⟩

end Treated

/-- `PMONITOR` is no command, and is taken for `MONITOR`. -/
theorem pmonitor_not_treated : ¬Treated (ascii "PMONITOR") [] :=
  fun h ↦ absurd (h.monitor.mp (by decide)) (by decide)

end MuxHiredis
