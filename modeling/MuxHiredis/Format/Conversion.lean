import Mathlib.Data.List.TakeWhile
import MuxHiredis.Format.Basic

/-!
# Conversions

The conversions that `redisvFormatCommand` recognises: flags, field width and
precision, a size modifier and a letter.  `_p` finds the letter of each, and what
becomes of one is decided by its length.
-/

namespace MuxHiredis

namespace Format

/-! ## The parts of a conversion -/

/-- What stands before the size modifier of a conversion. -/
structure Fields where
  flags : List UInt8
  width : List UInt8
  precision : Option (List UInt8)
  flags_mem : ∀ b ∈ flags, b ∈ Format.flags
  width_digit : ∀ b ∈ width, isdigit b = true
  precision_digit : ∀ digits ∈ precision, ∀ b ∈ digits, isdigit b = true

def precisionText : Option (List UInt8) → List UInt8
  | none => []
  | some digits => 46 :: digits

def Fields.text (f : Fields) : List UInt8 := f.flags ++ (f.width ++ precisionText f.precision)

inductive Modifier where
  | none | hh | h | l | ll
  deriving DecidableEq, Repr

def Modifier.text : Modifier → List UInt8
  | none => []
  | hh => [104, 104]
  | h => [104]
  | l => [108]
  | ll => [108, 108]

/-- A complete conversion of an integer or a floating-point number. -/
structure Conversion where
  fields : Fields
  modifier : Modifier
  letter : UInt8
  letter_mem : letter ∈ intfmts ∨ modifier = .none ∧ letter ∈ doublefmts

/-- From the percent sign to the letter. -/
def Conversion.text (k : Conversion) : List UInt8 :=
  37 :: (k.fields.text ++ (k.modifier.text ++ [k.letter]))

def Conversion.num (k : Conversion) : Num :=
  if k.letter ∈ intfmts then
    match k.modifier with
    | .l => .long
    | .ll => .longLong
    | _ => .int
  else .double

def Num.Takes : Num → VaArg → Prop
  | .int, .int _ => True
  | .long, .long _ => True
  | .longLong, .longLong _ => True
  | .double, .double _ => True
  | _, _ => False

theorem vaArg_takes {num : Num} {arg : VaArg} (h : num.Takes arg) (ap : List VaArg) :
    vaArg num (arg :: ap) = .ok ap := by
  cases num <;> cases arg <;> first | rfl | cases h

theorem Num.exists_takes (num : Num) : ∃ arg, num.Takes arg := by
  cases num with
  | int => exact ⟨.int 0, trivial⟩
  | long => exact ⟨.long 0, trivial⟩
  | longLong => exact ⟨.longLong 0, trivial⟩
  | double => exact ⟨.double 0, trivial⟩

/-- A byte that ends the fields. -/
def EndsFields (b : UInt8) : Prop := b ∉ flags ∧ isdigit b = false ∧ b ≠ 46

instance (b : UInt8) : Decidable (EndsFields b) := inferInstanceAs (Decidable (_ ∧ _ ∧ _))

theorem dropWhile_append_cons {p : UInt8 → Bool} {xs : List UInt8} {b : UInt8}
    (hxs : ∀ x ∈ xs, p x = true) (hb : p b = false) (rest : List UInt8) :
    (xs ++ b :: rest).dropWhile p = b :: rest := by
  rw [List.dropWhile_append_of_pos hxs, List.dropWhile_cons_of_neg (by rw [hb]; decide)]

/-- Zeros that begin the field width are taken for flags. -/
theorem dropWhile_dropWhile {p q : UInt8 → Bool} {xs ys : List UInt8} {b : UInt8}
    (hxs : ∀ x ∈ xs, p x = true) (hys : ∀ y ∈ ys, q y = true) (hp : p b = false)
    (hq : q b = false) (rest : List UInt8) :
    ((xs ++ (ys ++ b :: rest)).dropWhile p).dropWhile q = b :: rest := by
  rw [List.dropWhile_append_of_pos hxs]
  induction ys with
  | nil =>
      rw [List.nil_append, List.dropWhile_cons_of_neg (by rw [hp]; decide),
        List.dropWhile_cons_of_neg (by rw [hq]; decide)]
  | cons y ys ih =>
      cases hy : p y with
      | true =>
          rw [List.cons_append, List.dropWhile_cons_of_pos hy]
          exact ih fun z hz ↦ hys z (by simp [hz])
      | false =>
          rw [List.cons_append, List.dropWhile_cons_of_neg (by rw [hy]; decide),
            ← List.cons_append]
          exact dropWhile_append_cons hys hq rest

/-- `_p` stops right behind the fields. -/
theorem skipSpec_fields (f : Fields) {b : UInt8} (hb : EndsFields b) (rest : List UInt8) :
    skipSpec (37 :: (f.text ++ b :: rest)) = b :: rest := by
  obtain ⟨hflag, hdigit, hdot⟩ := hb
  have hflags : ∀ x ∈ f.flags, Format.flags.contains x = true := by
    intro x hx
    rw [List.contains_iff_mem]
    exact f.flags_mem x hx
  unfold skipSpec Fields.text
  rw [List.drop_succ_cons, List.drop_zero, List.append_assoc, List.append_assoc]
  cases hprec : f.precision with
  | none =>
      rw [precisionText, List.nil_append,
        dropWhile_dropWhile hflags f.width_digit (by simpa using hflag) hdigit]
      dsimp only
      split
      · rename_i heq
        cases heq
        exact absurd rfl hdot
      · rfl
  | some digits =>
      rw [precisionText, List.cons_append,
        dropWhile_dropWhile hflags f.width_digit (by decide) (by decide)]
      exact dropWhile_append_cons (f.precision_digit digits hprec) hdigit rest

theorem conversion_text (k : Conversion) (rest : List UInt8) :
    conversion (k.modifier.text ++ k.letter :: rest) = .ok (k.letter :: rest, k.num) := by
  obtain ⟨fields, modifier, letter, hletter⟩ := k
  have hint : ∀ b ∈ intfmts, strchrSet intfmts b = true ∧ b ≠ 0 ∧ b ≠ 104 ∧ b ≠ 108 := by
    simp [intfmts, strchrSet]
  have hdouble : ∀ b ∈ doublefmts, strchrSet intfmts b = false ∧
      strchrSet doublefmts b = true ∧ b ∉ intfmts := by
    simp [intfmts, doublefmts, strchrSet]
  rcases hletter with hletter | ⟨rfl, hletter⟩
  · obtain ⟨hset, hzero, hh, hl⟩ := hint letter hletter
    cases modifier <;>
      simp [Modifier.text, conversion, modified, Conversion.num, hset, hzero, hh, hl, hletter] <;>
      simp [strchrSet, intfmts, doublefmts]
  · obtain ⟨hset, hset', hnot⟩ := hdouble letter hletter
    simp [Modifier.text, conversion, Conversion.num, hset, hset', hnot]

/-- A byte that may follow the percent sign of a conversion. -/
def SpecByte (b : UInt8) : Prop := b ≠ 0 ∧ b ≠ 37 ∧ b ≠ 115 ∧ b ≠ 98

instance (b : UInt8) : Decidable (SpecByte b) := inferInstanceAs (Decidable (_ ∧ _ ∧ _ ∧ _))

theorem specByte_of_isdigit {b : UInt8} (h : isdigit b = true) : SpecByte b := by
  refine ⟨?_, ?_, ?_, ?_⟩ <;> (rintro rfl; revert h; decide)

theorem Fields.specByte (f : Fields) : ∀ b ∈ f.text, SpecByte b := by
  have hflags : ∀ b ∈ Format.flags, SpecByte b := by simp [Format.flags, SpecByte]
  intro b hb
  rw [Fields.text, List.mem_append, List.mem_append] at hb
  rcases hb with hb | hb | hb
  · exact hflags b (f.flags_mem b hb)
  · exact specByte_of_isdigit (f.width_digit b hb)
  · cases hprec : f.precision with
    | none =>
        rw [hprec] at hb
        cases hb
    | some digits =>
        rw [hprec, precisionText] at hb
        rcases List.mem_cons.mp hb with rfl | hb
        · decide
        · exact specByte_of_isdigit (f.precision_digit digits hprec b hb)

theorem Conversion.specByte (k : Conversion) :
    ∀ b ∈ k.fields.text ++ (k.modifier.text ++ [k.letter]), SpecByte b := by
  have hmodifier : ∀ b ∈ k.modifier.text, SpecByte b := by
    cases k.modifier <;> simp [Modifier.text, SpecByte]
  have hletters : ∀ b ∈ intfmts ++ doublefmts, SpecByte b := by
    simp [intfmts, doublefmts, SpecByte]
  intro b hb
  rw [List.mem_append, List.mem_append, List.mem_singleton] at hb
  rcases hb with hb | hb | rfl
  · exact k.fields.specByte b hb
  · exact hmodifier b hb
  · apply hletters
    rw [List.mem_append]
    exact k.letter_mem.imp_right And.right

theorem Conversion.text_eq (k : Conversion) :
    ∃ spec tail, k.text = 37 :: spec :: tail ∧ ∀ b ∈ spec :: tail, SpecByte b := by
  cases htail : k.fields.text ++ (k.modifier.text ++ [k.letter]) with
  | nil => simp at htail
  | cons spec tail =>
      refine ⟨spec, tail, ?_, ?_⟩
      · rw [Conversion.text, htail]
      · rw [← htail]
        exact k.specByte

theorem Conversion.endsFields (k : Conversion) :
    ∃ b rest, k.modifier.text ++ [k.letter] = b :: rest ∧ EndsFields b := by
  have hletters : ∀ b ∈ intfmts ++ doublefmts, EndsFields b := by
    simp [intfmts, doublefmts, EndsFields, flags, isdigit]
  have hletter : EndsFields k.letter := by
    apply hletters
    rw [List.mem_append]
    exact k.letter_mem.imp_right And.right
  cases k.modifier with
  | none => exact ⟨_, _, rfl, hletter⟩
  | hh => exact ⟨_, _, rfl, by decide⟩
  | h => exact ⟨_, _, rfl, by decide⟩
  | l => exact ⟨_, _, rfl, by decide⟩
  | ll => exact ⟨_, _, rfl, by decide⟩

theorem strBytes_eq_self {mem : List UInt8} (h : ∀ b ∈ mem, b ≠ 0) : strBytes mem = mem := by
  rw [strBytes, List.takeWhile_eq_self_iff]
  simpa using h

/-- A conversion that fits `_format` is replaced, and the scan goes on behind it;
of a longer one the argument is taken, and the scan goes on within it. -/
theorem printfSpec_text (vsnprintf : List UInt8 → List VaArg → List UInt8) {s : Scan}
    {k : Conversion} {c : List UInt8} {arg : VaArg} {ap : List VaArg}
    (hc : s.c = k.text ++ c) (hap : s.ap = arg :: ap) (harg : k.num.Takes arg) :
    printfSpec vsnprintf s =
      if k.text.length < 14 then
        .ok { s with
          c := s.c.drop (k.text.length - 2)
          ap := ap
          curarg := sdscatlen s.curarg (vsnprintf k.text s.ap) }
      else .ok { s with ap := ap } := by
  obtain ⟨b, rest, hrest, hb⟩ := k.endsFields
  have hskip : skipSpec s.c = k.modifier.text ++ k.letter :: c := by
    have hrest' : k.modifier.text ++ k.letter :: c = b :: (rest ++ c) := by
      rw [← List.cons_append, ← hrest, List.append_assoc, List.singleton_append]
    rw [hrest', hc, Conversion.text, hrest, List.cons_append, List.append_assoc]
    exact skipSpec_fields k.fields hb (rest ++ c)
  have hlen : s.c.length - (k.letter :: c).length + 1 = k.text.length := by
    rw [hc, List.length_append, List.length_cons]
    have : 0 < k.text.length := by simp [Conversion.text]
    omega
  have hformat : strBytes (s.c.take k.text.length) = k.text := by
    obtain ⟨spec, tail, htext, hbytes⟩ := k.text_eq
    rw [hc, List.take_left]
    apply strBytes_eq_self
    rw [htext]
    intro b hb
    rcases List.mem_cons.mp hb with rfl | hb
    · decide
    · exact (hbytes b hb).1
  unfold printfSpec
  rw [hskip, conversion_text, hap]
  simp only [bind, Except.bind, vaArg_takes harg, hlen, hformat]

end Format

end MuxHiredis
