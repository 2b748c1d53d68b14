import MuxHiredis.Sds.Split

/-!
# Quoted arguments

`sdscatrepr` writes a string in quotes, and `sdssplitargs` reads a line of arguments.
The line is memory from its first byte on; a read outside of it has no result.
-/

namespace MuxHiredis

namespace Quote

/-- In the C locale. -/
def isspace (c : UInt8) : Bool := c == 32 || 9 ≤ c && c ≤ 13

def isprint (c : UInt8) : Bool := 32 ≤ c && c ≤ 126

/-! ## Writing -/

/-- A digit of `%02x`. -/
def hexDigit (n : ℕ) : UInt8 := if n < 10 then UInt8.ofNat (48 + n) else UInt8.ofNat (87 + n)

/-- What is written for one byte. -/
def reprByte (c : UInt8) : List UInt8 :=
  if c = 92 ∨ c = 34 then [92, c]
  else if c = 10 then [92, 110]
  else if c = 13 then [92, 114]
  else if c = 9 then [92, 116]
  else if c = 7 then [92, 97]
  else if c = 8 then [92, 98]
  else if isprint c then [c]
  else [92, 120, hexDigit (c.toNat / 16), hexDigit (c.toNat % 16)]

def sdscatrepr (s : Sds) (p : List UInt8) : Sds :=
  sdscatlen (p.foldl (fun s c ↦ sdscatlen s (reprByte c)) (sdscatlen s [34])) [34]

/-! ## Reading -/

def is_hex_digit (c : UInt8) : Bool :=
  48 ≤ c && c ≤ 57 || 97 ≤ c && c ≤ 102 || 65 ≤ c && c ≤ 70

def hex_digit_to_int (c : UInt8) : UInt8 :=
  if 48 ≤ c ∧ c ≤ 57 then c - 48
  else if 97 ≤ c ∧ c ≤ 102 then c - 87
  else if 65 ≤ c ∧ c ≤ 70 then c - 55
  else 0

/-- The letter after a backslash. -/
def unescape (c : UInt8) : UInt8 :=
  if c = 110 then 10
  else if c = 114 then 13
  else if c = 116 then 9
  else if c = 98 then 8
  else if c = 97 then 7
  else c

/-- `inq` and `insq`. -/
inductive Mode where
  | plain
  | inq
  | insq

/-- What one round of the loop over a token does. -/
inductive Step where
  | byte (c : UInt8) (p : List UInt8)
  | quote (mode : Mode) (p : List UInt8)
  | done (p : List UInt8)
  | err
  | outside

/-- After a closing quote there is a space, or nothing. -/
def closing : List UInt8 → Step
  | [] => .outside
  | c :: p => if c ≠ 0 ∧ isspace c = false then .err else .done (c :: p)

/-- After `\x` in quotes. -/
def hexEscape : List UInt8 → Step
  | [] => .outside
  | a :: p =>
      if is_hex_digit a then
        match p with
        | [] => .outside
        | b :: q =>
            if is_hex_digit b then .byte (hex_digit_to_int a * 16 + hex_digit_to_int b) q
            else .byte 120 (a :: b :: q)
      else .byte 120 (a :: p)

/-- After a backslash in quotes. -/
def escape : List UInt8 → Step
  | [] => .outside
  | c :: p =>
      if c = 120 then hexEscape p
      else if c = 0 then .byte 92 (c :: p)
      else .byte (unescape c) p

/-- After a backslash in single quotes. -/
def escapeSingle : List UInt8 → Step
  | [] => .outside
  | c :: p => if c = 39 then .byte 39 p else .byte 92 (c :: p)

def step : Mode → List UInt8 → Step
  | _, [] => .outside
  | .inq, c :: p =>
      if c = 92 then escape p
      else if c = 34 then closing p
      else if c = 0 then .err
      else .byte c p
  | .insq, c :: p =>
      if c = 92 then escapeSingle p
      else if c = 39 then closing p
      else if c = 0 then .err
      else .byte c p
  | .plain, c :: p =>
      if c = 32 ∨ c = 10 ∨ c = 13 ∨ c = 9 then .done p
      else if c = 0 then .done (c :: p)
      else if c = 34 then .quote .inq p
      else if c = 39 then .quote .insq p
      else .byte c p

inductive Fault where
  | err
  | outside
  | fuel
  deriving DecidableEq, Repr

/-- `while(!done)`, with what is left of the line. -/
def token : ℕ → Mode → List UInt8 → List UInt8 → Except Fault (List UInt8 × List UInt8)
  | 0, _, _, _ => .error .fuel
  | fuel + 1, mode, p, current =>
      match step mode p with
      | .byte c p => token fuel mode p (current ++ [c])
      | .quote mode p => token fuel mode p current
      | .done p => .ok (current, p)
      | .err => .error .err
      | .outside => .error .outside

/-- `while(1)` -/
def tokens : ℕ → List UInt8 → List (List UInt8) → Except Fault (List (List UInt8))
  | 0, _, _ => .error .fuel
  | fuel + 1, p, vector =>
      match p.dropWhile isspace with
      | [] => .error .outside
      | c :: p =>
          if c = 0 then .ok vector
          else
            (token (p.length + 2) .plain (c :: p) []).bind fun r ↦
              tokens fuel r.2 (vector ++ [r.1])

/-- A result is `NULL` for `.err`. -/
def sdssplitargs (line : List UInt8) : Except Fault (List (List UInt8)) :=
  tokens (line.length + 1) line []

/-! ## What a line is -/

/-- Where a reader is in a line. -/
inductive State where
  | gap
  | plain
  | double
  | doubleEscape
  | single
  | singleEscape
  | closed
  | dead
  deriving DecidableEq

namespace State

def next : State → UInt8 → State
  | .gap, c =>
      if isspace c then .gap
      else if c = 34 then .double
      else if c = 39 then .single
      else .plain
  | .plain, c =>
      if c = 32 ∨ c = 10 ∨ c = 13 ∨ c = 9 then .gap
      else if c = 34 then .double
      else if c = 39 then .single
      else .plain
  | .double, c => if c = 92 then .doubleEscape else if c = 34 then .closed else .double
  | .doubleEscape, _ => .double
  | .single, c => if c = 92 then .singleEscape else if c = 39 then .closed else .single
  | .singleEscape, c => if c = 92 then .singleEscape else .single
  | .closed, c => if isspace c then .gap else .dead
  | .dead, _ => .dead

def final : State → Bool
  | .gap | .plain | .closed => true
  | .double | .doubleEscape | .single | .singleEscape | .dead => false

/-- The rest of a line, from this state on, is well formed. -/
def accepts (q : State) (s : List UInt8) : Bool := (s.foldl next q).final

@[simp] theorem accepts_nil (q : State) : q.accepts [] = q.final := rfl

@[simp] theorem accepts_cons (q : State) (c : UInt8) (s : List UInt8) :
    q.accepts (c :: s) = (q.next c).accepts s := rfl

theorem accepts_dead (s : List UInt8) : State.dead.accepts s = false := by
  induction s with
  | nil => rfl
  | cons c s ih => exact ih

end State

/-- The quotes of the line are closed, and a closing quote ends its argument. -/
def WellQuoted (s : List UInt8) : Prop := State.gap.accepts s = true

instance (s : List UInt8) : Decidable (WellQuoted s) := inferInstanceAs (Decidable (_ = true))

def Mode.state : Mode → State
  | .plain => .plain
  | .inq => .double
  | .insq => .single

/-- What a round does on a line that ends with `s`, whatever is behind its end. -/
inductive Round (mode : Mode) (s : List UInt8) : Prop
  | byte (c : UInt8) (s' : List UInt8) : s' <:+ s → s'.length < s.length →
      (∀ junk, step mode (s ++ 0 :: junk) = .byte c (s' ++ 0 :: junk)) →
      mode.state.accepts s = mode.state.accepts s' → Round mode s
  | quote (mode' : Mode) (s' : List UInt8) : s' <:+ s → s'.length < s.length →
      (∀ junk, step mode (s ++ 0 :: junk) = .quote mode' (s' ++ 0 :: junk)) →
      mode.state.accepts s = mode'.state.accepts s' → Round mode s
  | done (s' : List UInt8) : s' <:+ s → (s ≠ [] → s'.length < s.length) →
      (∀ junk, step mode (s ++ 0 :: junk) = .done (s' ++ 0 :: junk)) →
      mode.state.accepts s = State.gap.accepts s' → Round mode s
  | err : (∀ junk, step mode (s ++ 0 :: junk) = .err) → mode.state.accepts s = false → Round mode s

theorem suffix_tail {c : UInt8} {s : List UInt8} : s <:+ c :: s := List.suffix_cons c s

theorem length_tail {c : UInt8} {s : List UInt8} : s.length < (c :: s).length := Nat.lt_succ_self _

/-- After a closing quote. -/
theorem closing_round {s : List UInt8} (hs : 0 ∉ s) :
    (∀ junk, closing (s ++ 0 :: junk) = .done (s ++ 0 :: junk)) ∧
        State.closed.accepts s = State.gap.accepts s ∨
      (∀ junk, closing (s ++ 0 :: junk) = .err) ∧ State.closed.accepts s = false := by
  cases s with
  | nil => exact Or.inl ⟨fun _ ↦ rfl, rfl⟩
  | cons c s =>
      have hc : c ≠ 0 := fun h ↦ hs (h ▸ List.mem_cons_self)
      cases hspace : isspace c with
      | true =>
          refine Or.inl ⟨fun junk ↦ if_neg fun h ↦ ?_, ?_⟩
          · exact nomatch hspace.symm.trans h.2
          · simp only [State.accepts_cons, State.next, hspace, if_true]
      | false =>
          refine Or.inr ⟨fun junk ↦ if_pos ⟨hc, hspace⟩, ?_⟩
          simp only [State.accepts_cons, State.next, hspace]
          exact State.accepts_dead s

theorem hex_ordinary {a : UInt8} (h : is_hex_digit a = true) : State.double.next a = .double := by
  have hne : a ≠ 92 ∧ a ≠ 34 := by
    constructor <;> rintro rfl <;> exact absurd h (by decide)
  rw [State.next, if_neg hne.1, if_neg hne.2]

/-- After `\x`: whether or not there are two digits, the bytes are ordinary ones. -/
theorem hexEscape_round {s : List UInt8} :
    ∃ c s', s' <:+ s ∧ (∀ junk, hexEscape (s ++ 0 :: junk) = .byte c (s' ++ 0 :: junk)) ∧
      State.double.accepts s = State.double.accepts s' := by
  cases s with
  | nil => exact ⟨120, [], List.suffix_rfl, fun _ ↦ rfl, rfl⟩
  | cons a s =>
      cases ha : is_hex_digit a with
      | false =>
          exact ⟨120, a :: s, List.suffix_rfl, fun junk ↦ if_neg (ne_true_of_eq_false ha), rfl⟩
      | true =>
          cases s with
          | nil =>
              exact ⟨120, [a], List.suffix_rfl, fun junk ↦ (if_pos ha).trans rfl, rfl⟩
          | cons b s =>
              cases hb : is_hex_digit b with
              | false =>
                  exact ⟨120, a :: b :: s, List.suffix_rfl,
                    fun junk ↦ (if_pos ha).trans (if_neg (ne_true_of_eq_false hb)), rfl⟩
              | true =>
                  refine ⟨hex_digit_to_int a * 16 + hex_digit_to_int b, s,
                    suffix_tail.trans suffix_tail, fun junk ↦ (if_pos ha).trans (if_pos hb), ?_⟩
                  rw [State.accepts_cons, State.accepts_cons, hex_ordinary ha, hex_ordinary hb]

theorem round_inq {s : List UInt8} (hs : 0 ∉ s) : Round .inq s := by
  cases s with
  | nil => exact .err (fun _ ↦ rfl) rfl
  | cons c s =>
      obtain ⟨hc, htail⟩ := List.ne_and_not_mem_of_not_mem_cons hs
      by_cases hback : c = 92
      · subst hback
        cases s with
        | nil => exact .byte 92 [] suffix_tail length_tail (fun _ ↦ rfl) rfl
        | cons d s =>
            by_cases hx : d = 120
            · subst hx
              obtain ⟨b, s', hsuffix, hstep, haccepts⟩ := hexEscape_round (s := s)
              refine .byte b s' (hsuffix.trans (suffix_tail.trans suffix_tail)) ?_ hstep haccepts
              have hle := hsuffix.length_le
              simp only [List.length_cons]
              omega
            · have hd : d ≠ 0 := (List.ne_and_not_mem_of_not_mem_cons htail).1.symm
              refine .byte (unescape d) s (suffix_tail.trans suffix_tail) ?_ (fun junk ↦ ?_) rfl
              · simp only [List.length_cons]
                omega
              · exact (if_neg hx).trans (if_neg hd)
      · by_cases hquote : c = 34
        · subst hquote
          rcases closing_round htail with ⟨hstep, haccepts⟩ | ⟨hstep, haccepts⟩
          · exact .done s suffix_tail (fun _ ↦ length_tail) hstep haccepts
          · exact .err hstep haccepts
        · refine .byte c s suffix_tail length_tail (fun junk ↦ ?_) ?_
          · rw [List.cons_append, step, if_neg hback, if_neg hquote, if_neg hc.symm]
          · simp only [Mode.state, State.accepts_cons, State.next, if_neg hback, if_neg hquote]

theorem round_insq {s : List UInt8} (hs : 0 ∉ s) : Round .insq s := by
  cases s with
  | nil => exact .err (fun _ ↦ rfl) rfl
  | cons c s =>
      obtain ⟨hc, htail⟩ := List.ne_and_not_mem_of_not_mem_cons hs
      by_cases hback : c = 92
      · subst hback
        cases s with
        | nil => exact .byte 92 [] suffix_tail length_tail (fun _ ↦ rfl) rfl
        | cons d s =>
            by_cases hquote : d = 39
            · subst hquote
              refine .byte 39 s (suffix_tail.trans suffix_tail) ?_ (fun _ ↦ rfl) rfl
              simp only [List.length_cons]
              omega
            · refine .byte 92 (d :: s) suffix_tail length_tail (fun junk ↦ if_neg hquote) ?_
              -- The second byte is read again, as an ordinary one.
              simp only [Mode.state, State.accepts_cons, State.next, if_true, if_neg hquote]
      · by_cases hquote : c = 39
        · subst hquote
          rcases closing_round htail with ⟨hstep, haccepts⟩ | ⟨hstep, haccepts⟩
          · exact .done s suffix_tail (fun _ ↦ length_tail) hstep haccepts
          · exact .err hstep haccepts
        · refine .byte c s suffix_tail length_tail (fun junk ↦ ?_) ?_
          · rw [List.cons_append, step, if_neg hback, if_neg hquote, if_neg hc.symm]
          · simp only [Mode.state, State.accepts_cons, State.next, if_neg hback, if_neg hquote]

theorem round_plain {s : List UInt8} (hs : 0 ∉ s) : Round .plain s := by
  cases s with
  | nil => exact .done [] List.suffix_rfl (fun h ↦ absurd rfl h) (fun _ ↦ rfl) rfl
  | cons c s =>
      obtain ⟨hc, htail⟩ := List.ne_and_not_mem_of_not_mem_cons hs
      by_cases hend : c = 32 ∨ c = 10 ∨ c = 13 ∨ c = 9
      · refine .done s suffix_tail (fun _ ↦ length_tail) (fun junk ↦ if_pos hend) ?_
        simp only [Mode.state, State.accepts_cons, State.next, if_pos hend]
      · by_cases hdouble : c = 34
        · subst hdouble
          exact .quote .inq s suffix_tail length_tail (fun _ ↦ rfl) rfl
        · by_cases hsingle : c = 39
          · subst hsingle
            exact .quote .insq s suffix_tail length_tail (fun _ ↦ rfl) rfl
          · refine .byte c s suffix_tail length_tail (fun junk ↦ ?_) ?_
            · rw [List.cons_append, step, if_neg hend, if_neg hc.symm, if_neg hdouble,
                if_neg hsingle]
            · simp only [Mode.state, State.accepts_cons, State.next, if_neg hend, if_neg hdouble,
                if_neg hsingle]

theorem round_cases (mode : Mode) {s : List UInt8} (hs : 0 ∉ s) : Round mode s := by
  cases mode with
  | plain => exact round_plain hs
  | inq => exact round_inq hs
  | insq => exact round_insq hs

/-- What the rounds of a token come to. -/
inductive Read (mode : Mode) (s current : List UInt8) : Prop
  | ends (t s' : List UInt8) : s' <:+ s → (s ≠ [] → s'.length < s.length) →
      (∀ fuel junk, s.length < fuel →
        token fuel mode (s ++ 0 :: junk) current = .ok (t, s' ++ 0 :: junk)) →
      mode.state.accepts s = State.gap.accepts s' → Read mode s current
  | err : (∀ fuel junk, s.length < fuel →
        token fuel mode (s ++ 0 :: junk) current = .error .err) →
      mode.state.accepts s = false → Read mode s current

theorem Read.cons {mode mode' : Mode} {s s' current current' : List UInt8}
    (h : Read mode' s' current') (hsuffix : s' <:+ s) (hless : s'.length < s.length)
    (hrun : ∀ fuel junk, token (fuel + 1) mode (s ++ 0 :: junk) current =
      token fuel mode' (s' ++ 0 :: junk) current')
    (haccepts : mode.state.accepts s = mode'.state.accepts s') : Read mode s current := by
  have hfuel : ∀ fuel, s.length < fuel → ∃ n, fuel = n + 1 ∧ s'.length < n :=
    fun fuel hfuel ↦ ⟨fuel - 1, by omega, by omega⟩
  cases h with
  | ends t s'' hsuffix' _ htoken hsame =>
      refine .ends t s'' (hsuffix'.trans hsuffix) (fun _ ↦ hsuffix'.length_le.trans_lt hless)
        (fun fuel junk hlt ↦ ?_) (haccepts.trans hsame)
      obtain ⟨n, rfl, hn⟩ := hfuel fuel hlt
      rw [hrun, htoken n junk hn]
  | err htoken hnot =>
      refine .err (fun fuel junk hlt ↦ ?_) (haccepts.trans hnot)
      obtain ⟨n, rfl, hn⟩ := hfuel fuel hlt
      rw [hrun, htoken n junk hn]

/-- A token, by induction on what is left of the line. -/
theorem token_read (mode : Mode) {s : List UInt8} (hs : 0 ∉ s) (current : List UInt8) :
    Read mode s current := by
  induction hlen : s.length using Nat.strong_induction_on generalizing mode s current with
  | _ n ih =>
      subst hlen
      cases round_cases mode hs with
      | byte c s' hsuffix hless hstep haccepts =>
          have hs' : 0 ∉ s' := fun h ↦ hs (hsuffix.subset h)
          refine (ih s'.length hless mode hs' (current ++ [c]) rfl).cons hsuffix hless
            (fun fuel junk ↦ ?_) haccepts
          rw [token, hstep]
      | quote mode' s' hsuffix hless hstep haccepts =>
          have hs' : 0 ∉ s' := fun h ↦ hs (hsuffix.subset h)
          refine (ih s'.length hless mode' hs' current rfl).cons hsuffix hless
            (fun fuel junk ↦ ?_) haccepts
          rw [token, hstep]
      | done s' hsuffix hless hstep haccepts =>
          refine .ends current s' hsuffix hless (fun fuel junk hlt ↦ ?_) haccepts
          obtain ⟨n, rfl⟩ : ∃ n, fuel = n + 1 := ⟨fuel - 1, by omega⟩
          rw [token, hstep]
      | err hstep haccepts =>
          refine .err (fun fuel junk hlt ↦ ?_) haccepts
          obtain ⟨n, rfl⟩ : ∃ n, fuel = n + 1 := ⟨fuel - 1, by omega⟩
          rw [token, hstep]

theorem accepts_dropWhile (s : List UInt8) :
    State.gap.accepts (s.dropWhile isspace) = State.gap.accepts s := by
  induction s with
  | nil => rfl
  | cons c s ih =>
      rw [List.dropWhile_cons]
      split_ifs with hspace
      · rw [ih, State.accepts_cons, State.next, if_pos hspace]
      · rfl

theorem dropWhile_line (s junk : List UInt8) :
    (s ++ 0 :: junk).dropWhile isspace = s.dropWhile isspace ++ 0 :: junk := by
  induction s with
  | nil => rfl
  | cons c s ih =>
      rw [List.cons_append, List.dropWhile_cons, List.dropWhile_cons]
      split_ifs
      · exact ih
      · rfl

/-- Between arguments a byte that is no space is read as in an argument. -/
theorem accepts_gap {c : UInt8} (hspace : isspace c = false) (s : List UInt8) :
    State.gap.accepts (c :: s) = State.plain.accepts (c :: s) := by
  have hend : ¬(c = 32 ∨ c = 10 ∨ c = 13 ∨ c = 9) := by
    rintro (rfl | rfl | rfl | rfl) <;> exact absurd hspace (by decide)
  rw [State.accepts_cons, State.accepts_cons, State.next, State.next, if_neg hend,
    if_neg (ne_true_of_eq_false hspace)]

/-- All arguments, by induction on what is left of the line. -/
theorem tokens_cases {s : List UInt8} (hs : 0 ∉ s) (vector : List (List UInt8)) :
    (∃ args, (∀ fuel junk, s.length < fuel →
        tokens fuel (s ++ 0 :: junk) vector = .ok args) ∧ State.gap.accepts s = true) ∨
      (∀ fuel junk, s.length < fuel → tokens fuel (s ++ 0 :: junk) vector = .error .err) ∧
        State.gap.accepts s = false := by
  induction hlen : s.length using Nat.strong_induction_on generalizing s vector with
  | _ n ih =>
      subst hlen
      have hdrop := dropWhile_line s
      rw [← accepts_dropWhile s]
      have hle : (s.dropWhile isspace).length ≤ s.length := (List.dropWhile_suffix _).length_le
      have hs₁ : 0 ∉ s.dropWhile isspace := fun h ↦ hs ((List.dropWhile_suffix _).subset h)
      have hhead : ∀ c t, s.dropWhile isspace = c :: t → isspace c = false := by
        intro c t h
        have hnot := List.head?_dropWhile_not isspace s
        rw [h] at hnot
        exact hnot
      have hfuel : ∀ fuel, s.length < fuel → ∃ n, fuel = n + 1 := fun fuel h ↦ ⟨fuel - 1, by omega⟩
      cases hrest : s.dropWhile isspace with
      | nil =>
          refine Or.inl ⟨vector, fun fuel junk hlt ↦ ?_, rfl⟩
          obtain ⟨n, rfl⟩ := hfuel fuel hlt
          rw [tokens, hdrop, hrest]
          rfl
      | cons c t =>
          rw [hrest] at hle hs₁
          have hc : c ≠ 0 := (List.ne_and_not_mem_of_not_mem_cons hs₁).1.symm
          have hrun : ∀ n junk, tokens (n + 1) (s ++ 0 :: junk) vector =
              (token ((t ++ 0 :: junk).length + 2) .plain (c :: t ++ 0 :: junk) []).bind fun r ↦
                tokens n r.2 (vector ++ [r.1]) := by
            intro n junk
            rw [tokens, hdrop, hrest]
            exact if_neg hc
          have henough : ∀ junk : List UInt8, (c :: t).length < (t ++ 0 :: junk).length + 2 := by
            intro junk
            simp only [List.length_cons, List.length_append]
            omega
          rw [accepts_gap (hhead c t hrest)]
          cases token_read .plain hs₁ [] with
          | ends current s' hsuffix hless htoken haccepts =>
              have hs' : 0 ∉ s' := fun h ↦ hs₁ (hsuffix.subset h)
              have hless := (hless nofun).trans_le hle
              have hstep : ∀ n junk, tokens (n + 1) (s ++ 0 :: junk) vector =
                  tokens n (s' ++ 0 :: junk) (vector ++ [current]) := by
                intro n junk
                rw [hrun, htoken _ junk (henough junk)]
                rfl
              have haccepts : State.plain.accepts (c :: t) = State.gap.accepts s' := haccepts
              rw [haccepts]
              have hnext : ∀ fuel, s.length < fuel → ∃ n, fuel = n + 1 ∧ s'.length < n :=
                fun fuel hlt ↦ ⟨fuel - 1, by omega, by omega⟩
              rcases ih s'.length hless hs' (vector ++ [current]) rfl with
                ⟨args, hargs, hyes⟩ | ⟨herr, hno⟩
              · refine Or.inl ⟨args, fun fuel junk hlt ↦ ?_, hyes⟩
                obtain ⟨n, rfl, hn⟩ := hnext fuel hlt
                rw [hstep, hargs n junk hn]
              · refine Or.inr ⟨fun fuel junk hlt ↦ ?_, hno⟩
                obtain ⟨n, rfl, hn⟩ := hnext fuel hlt
                rw [hstep, herr n junk hn]
          | err htoken hno =>
              refine Or.inr ⟨fun fuel junk hlt ↦ ?_, hno⟩
              obtain ⟨n, rfl⟩ := hfuel fuel hlt
              rw [hrun, htoken _ junk (henough junk)]
              rfl

/-- A line is read up to its end and no further, and it has arguments if and only if
its quotes are in order. -/
theorem sdssplitargs_accepts {s : List UInt8} (hs : 0 ∉ s) :
    (WellQuoted s ∧ ∃ args, ∀ junk, sdssplitargs (s ++ 0 :: junk) = .ok args) ∨
      ¬WellQuoted s ∧ ∀ junk, sdssplitargs (s ++ 0 :: junk) = .error .err := by
  have hfuel : ∀ junk : List UInt8, s.length < (s ++ 0 :: junk).length + 1 := by
    intro junk
    rw [List.length_append]
    omega
  rcases tokens_cases hs [] with ⟨args, hargs, hyes⟩ | ⟨herr, hno⟩
  · exact Or.inl ⟨hyes, args, fun junk ↦ hargs _ junk (hfuel junk)⟩
  · exact Or.inr ⟨ne_true_of_eq_false hno, fun junk ↦ herr _ junk (hfuel junk)⟩

theorem sdssplitargs_accepts_open :
    sdssplitargs ([97, 32, 34, 98] ++ 0 :: [34]) = .error .err := by
  rcases sdssplitargs_accepts (s := [97, 32, 34, 98]) (by decide) with ⟨hyes, -⟩ | ⟨-, herr⟩
  · exact absurd hyes (by decide)
  · exact herr [34]

/-! ## What is written is read back -/

/-- An argument in quotes. -/
def quoted (p : List UInt8) : List UInt8 := 34 :: p.flatMap reprByte ++ [34]

theorem foldl_repr (p : List UInt8) (s : Sds) :
    (p.foldl (fun s c ↦ sdscatlen s (reprByte c)) s).bytes = s.bytes ++ p.flatMap reprByte := by
  induction p generalizing s with
  | nil => exact (List.append_nil _).symm
  | cons c p ih =>
      rw [List.foldl_cons, ih, sdscatlen_bytes, List.flatMap_cons, List.append_assoc]

theorem sdscatrepr_bytes (s : Sds) (p : List UInt8) :
    (sdscatrepr s p).bytes = s.bytes ++ quoted p := by
  rw [sdscatrepr, sdscatlen_bytes, foldl_repr, sdscatlen_bytes, quoted]
  simp only [List.append_assoc, List.cons_append, List.nil_append]

theorem is_hex_digit_hexDigit : ∀ n < 16, is_hex_digit (hexDigit n) = true := by decide

theorem hex_digit_to_int_hexDigit : ∀ n < 16, hex_digit_to_int (hexDigit n) = UInt8.ofNat n := by
  decide

theorem hex_byte (c : UInt8) :
    hex_digit_to_int (hexDigit (c.toNat / 16)) * 16 +
      hex_digit_to_int (hexDigit (c.toNat % 16)) = c := by
  have hc := c.toNat_lt
  rw [hex_digit_to_int_hexDigit _ (by omega), hex_digit_to_int_hexDigit _ (by omega)]
  apply UInt8.toNat_inj.mp
  simp only [UInt8.toNat_add, UInt8.toNat_mul, UInt8.toNat_ofNat', UInt8.reduceToNat]
  omega

/-- One round reads what is written for one byte. -/
theorem step_reprByte (c : UInt8) (p : List UInt8) : step .inq (reprByte c ++ p) = .byte c p := by
  unfold reprByte
  split_ifs with hself hn hr ht ha hb hprint
  · rcases hself with rfl | rfl <;> rfl
  · rw [hn]; rfl
  · rw [hr]; rfl
  · rw [ht]; rfl
  · rw [ha]; rfl
  · rw [hb]; rfl
  · obtain ⟨hback, hquote⟩ := not_or.mp hself
    have hzero : c ≠ 0 := by
      rintro rfl
      exact absurd hprint (by decide)
    rw [List.singleton_append, step, if_neg hback, if_neg hquote, if_neg hzero]
  · have hc := c.toNat_lt
    have hhigh := is_hex_digit_hexDigit (c.toNat / 16) (by omega)
    have hlow := is_hex_digit_hexDigit (c.toNat % 16) (by omega)
    calc
      step .inq ([92, 120, hexDigit (c.toNat / 16), hexDigit (c.toNat % 16)] ++ p) =
          hexEscape (hexDigit (c.toNat / 16) :: hexDigit (c.toNat % 16) :: p) := rfl
      _ = .byte (hex_digit_to_int (hexDigit (c.toNat / 16)) * 16 +
            hex_digit_to_int (hexDigit (c.toNat % 16))) p := by
        rw [hexEscape, if_pos hhigh]
        exact if_pos hlow
      _ = .byte c p := by rw [hex_byte]

/-- The end of an argument: a space or the end of the line. -/
theorem closing_done {c : UInt8} (hc : c = 0 ∨ isspace c = true) (p : List UInt8) :
    closing (c :: p) = .done (c :: p) := by
  apply if_neg
  rintro ⟨hne, hspace⟩
  rcases hc with rfl | hc
  · exact hne rfl
  · exact nomatch hc.symm.trans hspace

theorem token_body {c : UInt8} (hc : c = 0 ∨ isspace c = true) (rest p : List UInt8) {fuel : ℕ}
    (hfuel : p.length < fuel) (current : List UInt8) :
    token fuel .inq (p.flatMap reprByte ++ 34 :: c :: rest) current =
      .ok (current ++ p, c :: rest) := by
  induction p generalizing fuel current with
  | nil =>
      obtain ⟨n, rfl⟩ := Nat.exists_eq_add_one_of_ne_zero (Nat.ne_of_gt hfuel)
      have hstep : step .inq (34 :: c :: rest) = .done (c :: rest) := closing_done hc rest
      rw [List.flatMap_nil, List.nil_append, token, hstep, List.append_nil]
  | cons b p ih =>
      obtain ⟨n, rfl⟩ := Nat.exists_eq_add_one_of_ne_zero (Nat.ne_of_gt (Nat.zero_lt_of_lt hfuel))
      rw [List.flatMap_cons, List.append_assoc, token, step_reprByte]
      dsimp only
      rw [ih (Nat.lt_of_succ_lt_succ hfuel), List.append_assoc, List.singleton_append]

theorem length_le_flatMap (p : List UInt8) : p.length ≤ (p.flatMap reprByte).length := by
  induction p with
  | nil => exact Nat.zero_le _
  | cons c p ih =>
      have hpos : 1 ≤ (reprByte c).length := by
        unfold reprByte
        split_ifs <;> exact Nat.succ_le_succ (Nat.zero_le _)
      rw [List.flatMap_cons, List.length_append, List.length_cons]
      omega

theorem dropWhile_blanks {blanks : List UInt8} (h : ∀ c ∈ blanks, isspace c = true) {c : UInt8}
    (hc : isspace c = false) (p : List UInt8) :
    (blanks ++ c :: p).dropWhile isspace = c :: p := by
  rw [List.dropWhile_append_of_pos h, List.dropWhile_cons_of_neg (ne_true_of_eq_false hc)]

/-- One quoted argument, with what is behind it. -/
theorem tokens_quoted {blanks : List UInt8} (h : ∀ c ∈ blanks, isspace c = true) {c : UInt8}
    (hc : c = 0 ∨ isspace c = true) (a rest : List UInt8) (fuel : ℕ) (vector : List (List UInt8)) :
    tokens (fuel + 1) (blanks ++ (quoted a ++ c :: rest)) vector =
      tokens fuel (c :: rest) (vector ++ [a]) := by
  have hline : quoted a ++ c :: rest = 34 :: (a.flatMap reprByte ++ 34 :: c :: rest) := by
    simp only [quoted, List.append_assoc, List.cons_append, List.nil_append]
  have hfuel : a.length < (a.flatMap reprByte ++ 34 :: c :: rest).length + 1 := by
    have hle := length_le_flatMap a
    rw [List.length_append]
    omega
  rw [hline, tokens, dropWhile_blanks h (by decide)]
  dsimp only
  rw [if_neg (by decide), token]
  change (token _ .inq _ _).bind _ = _
  rw [token_body hc rest a hfuel []]
  rfl

/-- Behind the first argument of a line there is the end or a blank. -/
theorem joined_cons {sep : List UInt8} (hsep : sep ≠ []) (hspace : ∀ c ∈ sep, isspace c = true)
    (a : List UInt8) (args : List (List UInt8)) (junk : List UInt8) :
    ∃ c rest blanks, (c = 0 ∨ isspace c = true) ∧ (∀ b ∈ blanks, isspace b = true) ∧
      c :: rest = blanks ++ (sep.intercalate (args.map quoted) ++ 0 :: junk) ∧
      sep.intercalate ((a :: args).map quoted) ++ 0 :: junk = quoted a ++ c :: rest := by
  cases args with
  | nil =>
      refine ⟨0, junk, [], Or.inl rfl, fun b hb ↦ absurd hb List.not_mem_nil, rfl, ?_⟩
      rw [List.map_singleton, List.intercalate_singleton]
  | cons b args =>
      obtain ⟨c, sep', rfl⟩ := List.exists_cons_of_ne_nil hsep
      refine ⟨c, sep' ++ ((c :: sep').intercalate ((b :: args).map quoted) ++ 0 :: junk),
        c :: sep', Or.inr (hspace c List.mem_cons_self), hspace, rfl, ?_⟩
      rw [List.map_cons, List.intercalate_cons_of_ne_nil (by simp)]
      simp only [List.append_assoc, List.cons_append]

/-- The arguments of a line, by induction on them. -/
theorem tokens_joined {sep : List UInt8} (hsep : sep ≠ []) (hspace : ∀ c ∈ sep, isspace c = true)
    (junk : List UInt8) (args : List (List UInt8)) (blanks : List UInt8)
    (hblanks : ∀ c ∈ blanks, isspace c = true) (fuel : ℕ)
    (hfuel : (sep.intercalate (args.map quoted)).length < fuel) (vector : List (List UInt8)) :
    tokens fuel (blanks ++ (sep.intercalate (args.map quoted) ++ 0 :: junk)) vector =
      .ok (vector ++ args) := by
  obtain ⟨n, rfl⟩ := Nat.exists_eq_add_one_of_ne_zero (Nat.ne_of_gt (Nat.zero_lt_of_lt hfuel))
  induction args generalizing blanks n vector with
  | nil =>
      rw [List.map_nil, List.intercalate_nil, List.nil_append, tokens,
        dropWhile_blanks hblanks (by decide), List.append_nil]
      rfl
  | cons a args ih =>
      obtain ⟨c, rest, blanks', hc, hblanks', htail, hline⟩ := joined_cons hsep hspace a args junk
      have hlength := congrArg List.length hline
      rw [htail] at hlength
      simp only [List.length_append, List.length_cons, quoted, List.length_nil] at hlength
      rw [hline, tokens_quoted hblanks hc, htail]
      obtain ⟨m, rfl⟩ : ∃ m, n = m + 1 := ⟨n - 1, by omega⟩
      rw [ih blanks' hblanks' (vector ++ [a]) m (by omega), List.append_assoc,
        List.singleton_append]

/-- Any strings, written in quotes with spaces between them, are the arguments of the line. -/
theorem sdssplitargs_sdscatrepr (args : List (List UInt8)) {sep : List UInt8} (hsep : sep ≠ [])
    (hspace : ∀ c ∈ sep, isspace c = true) (junk : List UInt8) :
    sdssplitargs
        ((Split.sdsjoinsds (args.map (sdscatrepr sdsempty)) sep).bytes ++ 0 :: junk) =
      .ok args := by
  have hbytes : (args.map (sdscatrepr sdsempty)).map Sds.bytes = args.map quoted := by
    rw [List.map_map]
    apply List.map_congr_left
    intro a _
    exact sdscatrepr_bytes sdsempty a
  rw [sdssplitargs, Split.sdsjoinsds_bytes, hbytes]
  apply tokens_joined hsep hspace junk args [] fun c hc ↦ absurd hc List.not_mem_nil
  rw [List.length_append]
  omega

/-- An empty string, and one with a quote and bytes that are not printed. -/
theorem sdssplitargs_sdscatrepr_bytes :
    sdssplitargs ((Split.sdsjoinsds ([[], [34, 0, 255]].map (sdscatrepr sdsempty)) [32]).bytes ++
      0 :: [120]) = .ok [[], [34, 0, 255]] :=
  sdssplitargs_sdscatrepr [[], [34, 0, 255]] (by decide) (List.forall_mem_singleton.mpr rfl) [120]

end Quote

end MuxHiredis
