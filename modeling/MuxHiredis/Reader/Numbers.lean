import MuxHiredis.Reader.Basic

/-!
# Numbers in header lines

What `readLongLong` computes on the way to its result, and how far the result is
the number that stands in the line.
-/

namespace MuxHiredis

/-! ## Decimal representations -/

/-- The value of the digits, read on from `v`. -/
def valueFrom (v : ℕ) (digits : List UInt8) : ℕ :=
  digits.foldl (fun v c ↦ v * 10 + (c.toNat - 48)) v

/-- A line at the start of `s` is a decimal representation of `z`. -/
def Spelled (s : List UInt8) (z : ℤ) : Prop :=
  ∃ sign digits rest : List UInt8, s = sign ++ digits ++ cr :: rest ∧ digits ≠ [] ∧
    (∀ c ∈ digits, 48 ≤ c ∧ c < 58) ∧
    ((sign = [] ∨ sign = [43]) ∧ z = valueFrom 0 digits ∨ sign = [45] ∧ z = -valueFrom 0 digits)

/-- The number fits into a `long long`. -/
def Fits64 (z : ℤ) : Prop := -2 ^ 63 ≤ z ∧ z < 2 ^ 63

theorem valueFrom_append (v : ℕ) (front back : List UInt8) :
    valueFrom v (front ++ back) = valueFrom (valueFrom v front) back :=
  List.foldl_append

theorem le_valueFrom (v : ℕ) (digits : List UInt8) : v ≤ valueFrom v digits := by
  induction digits generalizing v with
  | nil => exact Nat.le_refl v
  | cons c digits ih =>
      calc v ≤ v * 10 + (c.toNat - 48) := by omega
        _ ≤ valueFrom (v * 10 + (c.toNat - 48)) digits := ih _

/-! ## What is computed -/

/-- The sign of a number and the place behind it, as `readLongLong` reads them. -/
def readSign (s : List UInt8) : ℤ × List UInt8 :=
  match s with
  | c :: rest => if c = 45 then (-1, rest) else if c = 43 then (1, rest) else (1, s)
  | [] => (1, s)

/-- What the digit loop computes, step by step and before anything wraps around. -/
def accumulated : ℤ → List UInt8 → List ℤ
  | _, [] => []
  | v, c :: rest =>
      if 48 ≤ c ∧ c < 58 then
        let dec : ℤ := (c.toNat : ℤ) - 48
        v * 10 :: (wrap64 (v * 10) + dec) :: accumulated (wrap64 (wrap64 (v * 10) + dec)) rest
      else []

/-- All that `readLongLong` computes, with the product that it returns. -/
def computed (s : List UInt8) : List ℤ :=
  accumulated 0 (readSign s).2 ++
    ((readDigits 0 (readSign s).2).map ((readSign s).1 * ·)).toList

/-- The value of the digits of `s`, up to the first byte that is no digit. -/
def magnitude (s : List UInt8) : ℕ :=
  valueFrom 0 ((readSign s).2.takeWhile fun c ↦ 48 ≤ c ∧ c < 58)

/-! ## The result modulo `2 ^ 64` -/

theorem wrap64_step (v d : ℤ) :
    wrap64 (wrap64 (wrap64 v * 10) + d) = wrap64 (v * 10 + d) := by
  simp only [wrap64, Int.bmod_def]
  omega

theorem wrap64_sign {m : ℤ} (hm : m = 1 ∨ m = -1) (z : ℤ) :
    wrap64 (m * wrap64 z) = wrap64 (m * z) := by
  simp only [wrap64, Int.bmod_def]
  rcases hm with rfl | rfl
  · omega
  · omega

theorem fits64_wrap64 (z : ℤ) : Fits64 (wrap64 z) := by
  simp only [Fits64, wrap64, Int.bmod_def]
  omega

theorem wrap64_of_fits {z : ℤ} (h : Fits64 z) : wrap64 z = z := by
  simp only [Fits64] at h
  simp only [wrap64, Int.bmod_def]
  omega

theorem digit_ne_cr {c : UInt8} (h : 48 ≤ c ∧ c < 58) : c ≠ cr := by
  rintro rfl
  exact absurd h.1 (by decide)

/-- One more digit. -/
theorem digit_step {c : UInt8} (h : 48 ≤ c ∧ c < 58) (v : ℕ) :
    (v : ℤ) * 10 + ((c.toNat : ℤ) - 48) = (v * 10 + (c.toNat - 48) : ℕ) := by
  have hc : 48 ≤ c.toNat := by simpa using UInt8.le_iff_toNat_le.mp h.1
  omega

theorem foldl_digits {digits : List UInt8} (h : ∀ c ∈ digits, 48 ≤ c ∧ c < 58) (v : ℕ) :
    digits.foldl (fun (v : ℤ) c ↦ v * 10 + ((c.toNat : ℤ) - 48)) v = valueFrom v digits := by
  induction digits generalizing v with
  | nil => rfl
  | cons c digits ih =>
      have hc := h c (by simp)
      rw [List.foldl_cons, digit_step hc, ih fun d hd ↦ h d (by simp [hd])]
      rfl

/-- The loop adds up the digits modulo `2 ^ 64`. -/
theorem readDigits_digits {digits : List UInt8} (h : ∀ c ∈ digits, 48 ≤ c ∧ c < 58) (v : ℕ)
    (rest : List UInt8) :
    readDigits (wrap64 v) (digits ++ cr :: rest) = some (wrap64 (valueFrom v digits)) := by
  induction digits generalizing v with
  | nil => exact if_pos rfl
  | cons c digits ih =>
      have hc := h c (by simp)
      have htail := ih (fun d hd ↦ h d (by simp [hd])) (v * 10 + (c.toNat - 48))
      rw [List.cons_append, readDigits, if_neg (digit_ne_cr hc), if_pos hc, wrap64_step,
        digit_step hc, htail]
      rfl

/-- A representation, as it is read after the sign. -/
theorem Spelled.readSign_eq {s : List UInt8} {z : ℤ} (h : Spelled s z) :
    ∃ digits rest, (readSign s).2 = digits ++ cr :: rest ∧ (∀ c ∈ digits, 48 ≤ c ∧ c < 58) ∧
      z = (readSign s).1 * valueFrom 0 digits ∧ ((readSign s).1 = 1 ∨ (readSign s).1 = -1) := by
  obtain ⟨sign, digits, rest, rfl, hne, hdigits, hvalue⟩ := h
  refine ⟨digits, rest, ?_⟩
  rcases hvalue with ⟨rfl | rfl, rfl⟩ | ⟨rfl, rfl⟩
  · obtain ⟨c, tail, rfl⟩ := List.exists_cons_of_ne_nil hne
    have hc := hdigits c (by simp)
    have hminus : c ≠ 45 := by
      rintro rfl
      exact absurd hc.1 (by decide)
    have hplus : c ≠ 43 := by
      rintro rfl
      exact absurd hc.1 (by decide)
    exact ⟨by simp [readSign, hminus, hplus], hdigits, by simp [readSign, hminus, hplus],
      by simp [readSign, hminus, hplus]⟩
  · exact ⟨by simp [readSign], hdigits, by simp [readSign], by simp [readSign]⟩
  · exact ⟨by simp [readSign], hdigits, by simp [readSign], by simp [readSign]⟩

theorem readLongLong_of_digits {s : List UInt8} {v : ℤ}
    (h : readDigits 0 (readSign s).2 = some v) : readLongLong s = wrap64 ((readSign s).1 * v) := by
  cases s with
  | nil => cases h
  | cons c rest =>
      by_cases hminus : c = 45
      · simp only [readSign, if_pos hminus] at h
        simp only [readLongLong, readSign, if_pos hminus, h]
      · by_cases hplus : c = 43
        · simp only [readSign, if_neg hminus, if_pos hplus] at h
          simp only [readLongLong, readSign, if_neg hminus, if_pos hplus, h]
        · simp only [readSign, if_neg hminus, if_neg hplus] at h
          simp only [readLongLong, readSign, if_neg hminus, if_neg hplus, h]

/-- A representation of a number is read as the number modulo `2 ^ 64`. -/
theorem readLongLong_spelled {s : List UInt8} {z : ℤ} (h : Spelled s z) :
    readLongLong s = wrap64 z := by
  obtain ⟨digits, rest, hread, hdigits, hz, hsign⟩ := h.readSign_eq
  have hloop : readDigits 0 (readSign s).2 = some (wrap64 (valueFrom 0 digits)) := by
    rw [hread]
    exact readDigits_digits hdigits 0 rest
  rw [readLongLong_of_digits hloop, hz, wrap64_sign hsign]

theorem fits64_readLongLong (s : List UInt8) : Fits64 (readLongLong s) := by
  unfold readLongLong
  simp only
  split
  · exact fits64_wrap64 _
  · exact ⟨by decide, by decide⟩

/-! ## What stays in range -/

theorem accumulated_fits_iff (v : ℕ) (hv : v < 2 ^ 63) (s : List UInt8) :
    (∀ x ∈ accumulated v s, Fits64 x) ↔
      valueFrom v (s.takeWhile fun c ↦ 48 ≤ c ∧ c < 58) < 2 ^ 63 := by
  induction s generalizing v with
  | nil => simpa [accumulated, valueFrom] using hv
  | cons c s ih =>
      by_cases hc : 48 ≤ c ∧ c < 58
      · have hvalue : valueFrom v ((c :: s).takeWhile fun c ↦ 48 ≤ c ∧ c < 58) =
            valueFrom (v * 10 + (c.toNat - 48)) (s.takeWhile fun c ↦ 48 ≤ c ∧ c < 58) := by
          rw [List.takeWhile_cons_of_pos (by simpa using hc)]
          rfl
        have hle := le_valueFrom (v * 10 + (c.toNat - 48))
          (s.takeWhile fun c ↦ 48 ≤ c ∧ c < 58)
        have hstep := digit_step hc v
        have hrest := ih (v * 10 + (c.toNat - 48))
        rw [hvalue]
        simp only [accumulated, if_pos hc, List.mem_cons, forall_eq_or_imp]
        constructor
        · rintro ⟨htens, hsum, htail⟩
          rw [wrap64_of_fits htens, hstep] at hsum htail
          rw [wrap64_of_fits hsum] at htail
          have hsmall : v * 10 + (c.toNat - 48) < 2 ^ 63 := by
            exact_mod_cast hsum.2
          exact (hrest hsmall).mp htail
        · intro hfits
          have hsmall : v * 10 + (c.toNat - 48) < 2 ^ 63 := lt_of_le_of_lt hle hfits
          have htens : Fits64 ((v : ℤ) * 10) := ⟨by omega, by omega⟩
          have hsum : Fits64 ((v * 10 + (c.toNat - 48) : ℕ) : ℤ) :=
            ⟨by omega, by exact_mod_cast hsmall⟩
          rw [wrap64_of_fits htens, hstep, wrap64_of_fits hsum]
          exact ⟨htens, hsum, (hrest hsmall).mpr hfits⟩
      · rw [List.takeWhile_cons_of_neg (by simpa using hc)]
        simpa [accumulated, hc, valueFrom] using hv

theorem readSign_sign (s : List UInt8) : (readSign s).1 = 1 ∨ (readSign s).1 = -1 := by
  unfold readSign
  split
  · split
    · exact Or.inr rfl
    · split <;> exact Or.inl rfl
  · exact Or.inl rfl

/-- The loop ends with a number at a `\r` behind digits only. -/
theorem digits_of_readDigits {v w : ℤ} {s : List UInt8} (h : readDigits v s = some w) :
    ∃ digits rest, s = digits ++ cr :: rest ∧ ∀ c ∈ digits, 48 ≤ c ∧ c < 58 := by
  induction s generalizing v with
  | nil => cases h
  | cons c s ih =>
      rw [readDigits] at h
      split at h
      · rename_i hcr
        exact ⟨[], s, by rw [hcr]; rfl, by simp⟩
      · split at h
        · rename_i hc
          obtain ⟨digits, rest, rfl, hdigits⟩ := ih h
          exact ⟨c :: digits, rest, rfl, List.forall_mem_cons.mpr ⟨hc, hdigits⟩⟩
        · cases h

theorem takeWhile_digits_cr {digits : List UInt8} (h : ∀ c ∈ digits, 48 ≤ c ∧ c < 58)
    (rest : List UInt8) :
    (digits ++ cr :: rest).takeWhile (fun c ↦ decide (48 ≤ c ∧ c < 58)) = digits := by
  rw [List.takeWhile_append_of_pos (by simpa using h), List.takeWhile_cons_of_neg (by decide),
    List.append_nil]

/-- Nothing overflows exactly when the digits do not. -/
theorem computed_fits_iff (s : List UInt8) :
    (∀ x ∈ computed s, Fits64 x) ↔ magnitude s < 2 ^ 63 := by
  have haccumulated := accumulated_fits_iff 0 (by decide) (readSign s).2
  simp only [computed, List.mem_append, or_imp, forall_and, Option.mem_toList,
    Option.map_eq_some_iff]
  constructor
  · exact fun h ↦ haccumulated.mp h.1
  · intro hsmall
    refine ⟨haccumulated.mpr hsmall, ?_⟩
    rintro x ⟨w, hw, rfl⟩
    obtain ⟨digits, rest, hread, hdigits⟩ := digits_of_readDigits hw
    have hmagnitude : magnitude s = valueFrom 0 digits := by
      rw [magnitude, hread, takeWhile_digits_cr hdigits]
    have hvalue : Fits64 (valueFrom 0 digits : ℤ) := ⟨by omega, by omega⟩
    have hloop : readDigits 0 (readSign s).2 = some (wrap64 (valueFrom 0 digits)) := by
      rw [hread]
      exact readDigits_digits hdigits 0 rest
    rw [hloop, wrap64_of_fits hvalue] at hw
    obtain rfl := Option.some.inj hw
    rcases readSign_sign s with hs | hs <;>
    · rw [hs]
      exact ⟨by omega, by omega⟩

theorem Spelled.natAbs_eq {s : List UInt8} {z : ℤ} (h : Spelled s z) : z.natAbs = magnitude s := by
  obtain ⟨digits, rest, hread, hdigits, rfl, hsign⟩ := h.readSign_eq
  rw [magnitude, hread, takeWhile_digits_cr hdigits]
  rcases hsign with hs | hs <;> simp [hs]

/-! ## Headers -/

namespace RedisReader

variable {σ : Type}

/-- The header line of an item with a number: its length, and the number. -/
def header (r : RedisReader σ) : Option (ℕ × ℤ) :=
  (seekNewline r.unread).map fun n ↦ (n, readLongLong r.unread)

/-- What becomes of an item whose header is a line of `n` bytes with `number`. -/
def deliver (r : RedisReader σ) (n : ℕ) (number : ℤ) : Status × RedisReader σ :=
  let setRoot (obj : Obj) (s : ReadState σ) : ReadState σ :=
    if r.ridx = 0 then { s with reply := some obj } else s
  match r.cur.type with
  | some .integer =>
      { r with pos := r.pos + n + 2 }.withObject (r.makeInteger r.fn number) fun obj s ↦
        (s.setRoot obj).moveToNextTask
  | some .string =>
      if number < 0 then
        { r with pos := r.pos + (n + 2) }.withObject (r.makeNil r.fn) fun obj s ↦
          (s.setRoot obj).moveToNextTask
      else if r.pos + (n + 2 + number.toNat + 2) ≤ r.len then
        { r with pos := r.pos + (n + 2 + number.toNat + 2) }.withObject
          (r.makeString r.fn .string ((r.unread.drop (n + 2)).take number.toNat)) fun obj s ↦
            (s.setRoot obj).moveToNextTask
      else (.err, r)
  | some .array =>
      if number = -1 then
        { r with pos := r.pos + n + 2 }.withObject (r.makeNil r.fn) fun obj s ↦
          setRoot obj s.moveToNextTask
      else
        { r with pos := r.pos + n + 2 }.withObject (r.makeArray r.fn number) fun obj s ↦
          setRoot obj (if 0 < number then s.pushTask number obj else s.moveToNextTask)
  | _ => (.err, r)

/-- The item at the cursor has a number in its header. -/
structure AtHeader (r : RedisReader σ) : Prop where
  type : r.cur.type = some .integer ∨ r.cur.type = some .string ∨ r.cur.type = some .array
  depth : r.ridx ≠ 8

end RedisReader

/-! ## Faithful lines -/

/-- A line is read within the range of a `long long`, to the number that stands in
it; and a number out of range does not become another one. -/
structure Faithful (s : List UInt8) : Prop where
  in_range : ∀ x ∈ computed s, Fits64 x
  exact : ∀ z, Spelled s z → Fits64 z → readLongLong s = z
  no_other : ∀ z, Spelled s z → ¬Fits64 z →
    ∀ {σ : Type} (r : RedisReader σ), r.AtHeader → r.unread = s →
      ∀ n number, r.header = some (n, number) → number = z

/-- A line is faithful exactly when its digits stay below `2 ^ 63`. -/
theorem faithful_iff (s : List UInt8) : Faithful s ↔ magnitude s < 2 ^ 63 := by
  refine ⟨fun h ↦ (computed_fits_iff s).mp h.in_range, fun h ↦ ?_⟩
  refine ⟨(computed_fits_iff s).mpr h, fun z hz hfits ↦ ?_, fun z hz hfits ↦ ?_⟩
  · rw [readLongLong_spelled hz, wrap64_of_fits hfits]
  · have habs := hz.natAbs_eq
    exact (hfits ⟨by omega, by omega⟩).elim

/-- The integer `18446744073709551617` is read as `1`. -/
theorem beyond_not_faithful :
    let line : List UInt8 := [49, 56, 52, 52, 54, 55, 52, 52, 48, 55, 51, 55, 48, 57, 53, 53, 49,
      54, 49, 55, 13, 10]
    readLongLong line = 1 ∧ ¬Faithful line :=
  ⟨by decide +kernel, fun h ↦ absurd ((computed_fits_iff _).mp h.in_range) (by decide)⟩

end MuxHiredis
