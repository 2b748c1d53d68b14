import MuxHiredis.Reader.Numbers

/-!
# Reply trees and their encoding

A reply as the server means it is a tree.  `encode` is how the server sends it,
and `Represents` says which objects of a store are that tree.
-/

namespace MuxHiredis

inductive ReplyTree where
  | status (line : List UInt8)
  | error (line : List UInt8)
  | integer (value : ℤ)
  | string (bytes : List UInt8)
  | nil
  | array (elements : List ReplyTree)

/-! ## Numbers -/

/-- The decimal digits of `n`. -/
def decimal (n : ℕ) : List UInt8 := (Nat.toDigits 10 n).map fun c ↦ c.toNat.toUInt8

/-- A number with its sign, when it is negative. -/
def signedDecimal (z : ℤ) : List UInt8 :=
  if z < 0 then 45 :: decimal z.natAbs else decimal z.natAbs

theorem toUInt8_digitChar {d : ℕ} (h : d < 10) :
    (Nat.digitChar d).toNat.toUInt8 = UInt8.ofNat (48 + d) := by
  interval_cases d <;> decide

theorem decimal_of_lt {n : ℕ} (h : n < 10) : decimal n = [UInt8.ofNat (48 + n)] := by
  rw [decimal, Nat.toDigits_of_lt_base h, List.map_singleton, toUInt8_digitChar h]

theorem decimal_of_le {n : ℕ} (h : 10 ≤ n) :
    decimal n = decimal (n / 10) ++ [UInt8.ofNat (48 + n % 10)] := by
  have hmod : n % 10 < 10 := Nat.mod_lt n (by decide)
  rw [decimal, Nat.toDigits_of_base_le (by decide) h, List.map_append, List.map_singleton,
    toUInt8_digitChar hmod, decimal]

theorem digit_bounds {d : ℕ} (h : d < 10) :
    48 ≤ UInt8.ofNat (48 + d) ∧ UInt8.ofNat (48 + d) < 58 ∧
      (UInt8.ofNat (48 + d)).toNat = 48 + d := by
  interval_cases d <;> decide

theorem digits_of_mem_decimal {n : ℕ} {c : UInt8} (h : c ∈ decimal n) : 48 ≤ c ∧ c < 58 := by
  induction n using Nat.strong_induction_on with
  | _ n ih =>
      by_cases hn : n < 10
      · rw [decimal_of_lt hn, List.mem_singleton] at h
        obtain ⟨hlo, hhi, -⟩ := digit_bounds hn
        exact h ▸ ⟨hlo, hhi⟩
      · rw [decimal_of_le (by omega), List.mem_append, List.mem_singleton] at h
        rcases h with h | h
        · exact ih (n / 10) (by omega) h
        · obtain ⟨hlo, hhi, -⟩ := digit_bounds (Nat.mod_lt n (show 0 < 10 by decide))
          exact h ▸ ⟨hlo, hhi⟩

theorem wrap32_of_lt {z : ℤ} (h : -2 ^ 31 < z) (h' : z < 2 ^ 31) : wrap32 z = z := by
  unfold wrap32
  apply Int.bmod_eq_of_le <;> omega

theorem decimal_ne_nil (n : ℕ) : decimal n ≠ [] := by
  by_cases hn : n < 10
  · simp [decimal_of_lt hn]
  · simp [decimal_of_le (show 10 ≤ n by omega)]

theorem valueFrom_decimal (n : ℕ) : valueFrom 0 (decimal n) = n := by
  have hdigit (v d : ℕ) (hd : d < 10) : valueFrom v [UInt8.ofNat (48 + d)] = v * 10 + d := by
    obtain ⟨-, -, hnat⟩ := digit_bounds hd
    rw [valueFrom, List.foldl_cons, List.foldl_nil, hnat, Nat.add_sub_cancel_left]
  induction n using Nat.strong_induction_on with
  | _ n ih =>
      by_cases hn : n < 10
      · rw [decimal_of_lt hn, hdigit 0 n hn, Nat.zero_mul, Nat.zero_add]
      · rw [decimal_of_le (by omega), valueFrom_append, ih (n / 10) (by omega),
          hdigit _ _ (Nat.mod_lt n (by decide))]
        omega

theorem decimal_injective {i j : ℕ} (h : decimal i = decimal j) : i = j := by
  rw [← valueFrom_decimal i, h, valueFrom_decimal]

theorem spelled_signedDecimal (z : ℤ) (rest : List UInt8) :
    Spelled (signedDecimal z ++ cr :: rest) z := by
  unfold signedDecimal
  by_cases hneg : z < 0
  · rw [if_pos hneg]
    refine ⟨[45], decimal z.natAbs, rest, rfl, decimal_ne_nil _, fun c ↦ digits_of_mem_decimal,
      Or.inr ⟨rfl, ?_⟩⟩
    rw [valueFrom_decimal]
    omega
  · rw [if_neg hneg]
    refine ⟨[], decimal z.natAbs, rest, rfl, decimal_ne_nil _, fun c ↦ digits_of_mem_decimal,
      Or.inl ⟨Or.inl rfl, ?_⟩⟩
    rw [valueFrom_decimal]
    omega

theorem readLongLong_signedDecimal {z : ℤ} (h : -2 ^ 63 < z) (h' : z < 2 ^ 63)
    (rest : List UInt8) : readLongLong (signedDecimal z ++ cr :: rest) = z := by
  rw [readLongLong_spelled (spelled_signedDecimal z rest), wrap64_of_fits ⟨le_of_lt h, h'⟩]

/-! ## Lines -/

def crlf : List UInt8 := [cr, lf]

/-- The first `\r\n` after a line without one is its own. -/
theorem seekNewline_line {line : List UInt8} (h : ¬crlf <:+: line) (rest : List UInt8) :
    seekNewline (line ++ crlf ++ rest) = some line.length := by
  induction line with
  | nil => simp [crlf, seekNewline]
  | cons a line ih =>
      have htail : ¬crlf <:+: line := fun hi ↦ h (hi.trans (List.suffix_cons a line).isInfix)
      cases line with
      | nil =>
          have hne : ¬(a = cr ∧ cr = lf) := fun hc ↦ absurd hc.2 (by decide)
          have hrest := ih htail
          simp only [crlf, List.nil_append, List.cons_append] at hrest
          simp [crlf, seekNewline, hne]
      | cons b line =>
          have hne : ¬(a = cr ∧ b = lf) := by
            rintro ⟨rfl, rfl⟩
            exact h ⟨[], line, rfl⟩
          have hrest := ih htail
          simp only [List.cons_append, List.append_assoc] at hrest
          simp only [List.cons_append, List.append_assoc, seekNewline, if_neg hne, hrest,
            Option.map_some, List.length_cons]

theorem crlf_not_infix_signedDecimal (z : ℤ) : ¬crlf <:+: signedDecimal z := by
  intro h
  have hcr : cr ∈ signedDecimal z := h.subset (by simp [crlf])
  have hdec : ∀ n, cr ∉ decimal n := fun n hn ↦
    absurd (digits_of_mem_decimal hn).1 (by decide)
  unfold signedDecimal at hcr
  split at hcr
  · rcases List.mem_cons.mp hcr with h45 | hn
    · exact absurd h45 (by decide)
    · exact hdec _ hn
  · exact hdec _ hcr

/-! ## Objects -/

/-- The object of an array of `n` elements, the first of which are `filled`. -/
def RedisReply.ofArray (n : ℕ) (filled : List Obj) : RedisReply :=
  { createReplyObject .array with
    elements := n
    element :=
      if 0 < n then some (filled.map some ++ List.replicate (n - filled.length) none) else none }

/-- A full vector determines its elements. -/
theorem RedisReply.ofArray_injective {n n' : ℕ} {qs qs' : List Obj} (hn : qs.length = n)
    (hn' : qs'.length = n') (h : RedisReply.ofArray n qs = .ofArray n' qs') : qs = qs' := by
  subst hn hn'
  have hlen : qs.length = qs'.length := congrArg RedisReply.elements h
  have helt := congrArg RedisReply.element h
  cases qs with
  | nil => exact (List.length_eq_zero_iff.mp hlen.symm).symm
  | cons q qs =>
      have hpos' : 0 < qs'.length := by simp [← hlen]
      simp only [ofArray, if_pos hpos', List.length_cons, Nat.succ_pos, if_true, Nat.sub_self,
        List.replicate_zero, List.append_nil, Option.some.injEq] at helt
      exact List.map_injective_iff.mpr (Option.some_injective _) helt

def RedisReply.ofString (type : ReplyType) (bytes : List UInt8) : RedisReply :=
  { createReplyObject type with str := some (bytes ++ [0]), len := bytes.length }

def RedisReply.ofInteger (value : ℤ) : RedisReply :=
  { createReplyObject .integer with integer := value }

/-! ## Trees -/

namespace ReplyTree

mutual

/-- The bytes a server sends for a reply. -/
def encode : ReplyTree → List UInt8
  | .status line => 43 :: (line ++ crlf)
  | .error line => 45 :: (line ++ crlf)
  | .integer value => 58 :: (signedDecimal value ++ crlf)
  | .string bytes => 36 :: (signedDecimal bytes.length ++ crlf ++ bytes ++ crlf)
  | .nil => 36 :: (signedDecimal (-1) ++ crlf)
  | .array elements => 42 :: (signedDecimal elements.length ++ crlf ++ encodeAll elements)

def encodeAll : List ReplyTree → List UInt8
  | [] => []
  | t :: ts => encode t ++ encodeAll ts

end

mutual

/-- The replies a reader can take at nesting depth `d`: lines are lines,
integers and counts fit, and no array is deeper than 7. -/
def Sendable : ℕ → ReplyTree → Prop
  | _, .status line => ¬crlf <:+: line
  | _, .error line => ¬crlf <:+: line
  | _, .integer value => -2 ^ 63 < value ∧ value < 2 ^ 63
  | _, .string _ => True
  | _, .nil => True
  | d, .array elements => d ≤ 7 ∧ elements.length < 2 ^ 31 ∧ SendableAll (d + 1) elements

def SendableAll : ℕ → List ReplyTree → Prop
  | _, [] => True
  | d, t :: ts => Sendable d t ∧ SendableAll d ts

end

mutual

/-- The object `p` and those it holds are the reply `t`, and none was freed.
Elements are created after their array. -/
def Represents (cells : List Cell) : Obj → ReplyTree → Prop
  | p, .status line => cells[p]? = some ⟨RedisReply.ofString .status line, 0⟩
  | p, .error line => cells[p]? = some ⟨RedisReply.ofString .error line, 0⟩
  | p, .integer value => cells[p]? = some ⟨RedisReply.ofInteger value, 0⟩
  | p, .string bytes => cells[p]? = some ⟨RedisReply.ofString .string bytes, 0⟩
  | p, .nil => cells[p]? = some ⟨createReplyObject .nil, 0⟩
  | p, .array elements =>
      ∃ qs : List Obj, cells[p]? = some ⟨RedisReply.ofArray elements.length qs, 0⟩ ∧
        (∀ q ∈ qs, p < q) ∧ RepresentsAll cells qs elements

def RepresentsAll (cells : List Cell) : List Obj → List ReplyTree → Prop
  | [], [] => True
  | q :: qs, t :: ts => Represents cells q t ∧ RepresentsAll cells qs ts
  | _, _ => False

end

theorem RepresentsAll.length {cells : List Cell} {qs : List Obj} (ts : List ReplyTree)
    (h : RepresentsAll cells qs ts) : qs.length = ts.length := by
  induction ts generalizing qs with
  | nil =>
      cases qs with
      | nil => rfl
      | cons q qs => exact h.elim
  | cons t ts ih =>
      cases qs with
      | nil => exact h.elim
      | cons q qs => rw [List.length_cons, List.length_cons, ih h.2]

mutual

theorem Represents.unique {cells : List Cell} : (t t' : ReplyTree) → {p : Obj} →
    Represents cells p t → Represents cells p t' → t = t'
  | .array ts, t', p, h, h' => by
      obtain ⟨qs, hcell, -, hall⟩ := h
      cases t' with
      | array ts' =>
          obtain ⟨qs', hcell', -, hall'⟩ := h'
          have hlen := RepresentsAll.length ts hall
          have hlen' := RepresentsAll.length ts' hall'
          have hcells : RedisReply.ofArray ts.length qs = .ofArray ts'.length qs' := by
            simpa using hcell.symm.trans hcell'
          rw [RedisReply.ofArray_injective hlen hlen' hcells] at hall
          rw [RepresentsAll.unique ts ts' hall hall']
      | _ =>
          simp only [Represents, hcell] at h'
          cases h'
  | .status line, t', p, h, h' => by
      cases t' <;> simp_all [Represents, RedisReply.ofString, RedisReply.ofInteger,
        RedisReply.ofArray, createReplyObject]
  | .error line, t', p, h, h' => by
      cases t' <;> simp_all [Represents, RedisReply.ofString, RedisReply.ofInteger,
        RedisReply.ofArray, createReplyObject]
  | .integer value, t', p, h, h' => by
      cases t' <;> simp_all [Represents, RedisReply.ofString, RedisReply.ofInteger,
        RedisReply.ofArray, createReplyObject]
  | .string bytes, t', p, h, h' => by
      cases t' <;> simp_all [Represents, RedisReply.ofString, RedisReply.ofInteger,
        RedisReply.ofArray, createReplyObject]
  | .nil, t', p, h, h' => by
      cases t' <;> simp_all [Represents, RedisReply.ofString, RedisReply.ofInteger,
        RedisReply.ofArray, createReplyObject]

theorem RepresentsAll.unique {cells : List Cell} : (ts ts' : List ReplyTree) →
    {qs : List Obj} → RepresentsAll cells qs ts → RepresentsAll cells qs ts' → ts = ts'
  | [], [], _, _, _ => rfl
  | t :: ts, t' :: ts', q :: qs, h, h' => by
      rw [Represents.unique t t' h.1 h'.1, RepresentsAll.unique ts ts' h.2 h'.2]
  | [], _ :: _, [], _, h' => h'.elim
  | [], _ :: _, _ :: _, h, _ => h.elim
  | _ :: _, [], [], h, _ => h.elim
  | _ :: _, [], _ :: _, _, h' => h'.elim
  | _ :: _, _ :: _, [], h, _ => h.elim

end

end ReplyTree

end MuxHiredis
