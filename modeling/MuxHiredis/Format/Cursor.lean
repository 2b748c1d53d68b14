import MuxHiredis.Format.Template

/-!
# The position in the format

Where the scan of `redisvFormatCommand` stands after a round.  It passes whole
pieces, and of a conversion that is too long its first two bytes.  It leaves the
format behind only where this ends within the flags, the width or the precision
of a conversion.
-/

namespace MuxHiredis

namespace Format

/-! ## Formats that end too early -/

/-- The format is cut short: after whole pieces it ends in a percent sign and
fields that fit `_format` with the terminator. -/
def CutShort (format : List UInt8) : Prop :=
  ∃ (ps : List Piece) (f : Fields), f.text ≠ [] ∧ f.text.length < 12 ∧
    format = ps.flatMap Piece.text ++ 37 :: f.text

theorem not_cutShort_nil : ¬CutShort [] := by
  rintro ⟨ps, f, -, -, h⟩
  simp at h

theorem CutShort.piece {format : List UInt8} (h : CutShort format) (p : Piece) :
    CutShort (p.text ++ format) := by
  obtain ⟨ps, f, hne, hlen, rfl⟩ := h
  exact ⟨p :: ps, f, hne, hlen, by rw [List.flatMap_cons, List.append_assoc]⟩

/-- A byte is a piece of its own unless it is a percent sign. -/
theorem exists_byte {b : UInt8} (hzero : b ≠ 0) (hpercent : b ≠ 37) :
    ∃ p : Piece, p.text = [b] := by
  by_cases hspace : b = 32
  · exact ⟨.space, by rw [hspace]; rfl⟩
  · exact ⟨.lit b ⟨hzero, hpercent, hspace⟩, rfl⟩

theorem CutShort.tail {b : UInt8} {format : List UInt8} (h : CutShort (b :: format))
    (hb : b ≠ 37) : CutShort format := by
  obtain ⟨ps, f, hne, hlen, heq⟩ := h
  cases ps with
  | nil =>
      rw [List.flatMap_nil, List.nil_append, List.cons.injEq] at heq
      exact absurd heq.1 hb
  | cons p ps =>
      rw [List.flatMap_cons, List.append_assoc] at heq
      cases p with
      | lit c hc =>
          rw [Piece.text, List.singleton_append, List.cons.injEq] at heq
          exact ⟨ps, f, hne, hlen, heq.2⟩
      | space =>
          rw [Piece.text, List.singleton_append, List.cons.injEq] at heq
          exact ⟨ps, f, hne, hlen, heq.2⟩
      | str mem => exact absurd (List.cons.inj heq).1 hb
      | bin mem size hsize => exact absurd (List.cons.inj heq).1 hb
      | percent => exact absurd (List.cons.inj heq).1 hb
      | conv k arg harg => exact absurd (List.cons.inj heq).1 hb

theorem CutShort.drop (bs : List UInt8) {format : List UInt8} (h : CutShort (bs ++ format))
    (hbs : ∀ b ∈ bs, b ≠ 37) : CutShort format := by
  induction bs with
  | nil => exact h
  | cons b bs ih => exact ih (h.tail (hbs b (by simp))) fun x hx ↦ hbs x (by simp [hx])

theorem CutShort.str {format : List UInt8} (h : CutShort (37 :: 115 :: format)) :
    CutShort format := by
  obtain ⟨ps, f, hne, hlen, heq⟩ := h
  cases ps with
  | nil =>
      have htext : f.text = 115 :: format := (List.cons.inj heq).2.symm
      exact absurd rfl (f.specByte 115 (by simp [htext])).2.2.1
  | cons p ps =>
      rw [List.flatMap_cons, List.append_assoc] at heq
      cases p with
      | lit b hb => exact absurd (List.cons.inj heq).1.symm hb.2.1
      | space => exact absurd (List.cons.inj heq).1 (by decide)
      | str mem => exact ⟨ps, f, hne, hlen, (List.cons.inj (List.cons.inj heq).2).2⟩
      | bin mem size hsize => exact absurd (List.cons.inj (List.cons.inj heq).2).1 (by decide)
      | percent => exact absurd (List.cons.inj (List.cons.inj heq).2).1 (by decide)
      | conv k arg harg =>
          obtain ⟨spec, tail, htext, hbytes⟩ := k.text_eq
          rw [Piece.text, htext] at heq
          have hspec := (List.cons.inj (List.cons.inj heq).2).1
          exact absurd hspec.symm (hbytes spec (by simp)).2.2.1

/-- What a round of the scan passes, unless it leaves the format. -/
inductive Passed : List UInt8 → List UInt8 → Prop where
  | piece (p : Piece) (rest : List UInt8) : Passed (p.text ++ rest) rest
  | lone : Passed [37] []
  | long (k : Conversion) (rest : List UInt8) :
      ¬k.text.length < 14 → Passed (k.text ++ rest) (k.text.drop 2 ++ rest)
  | fields (f : Fields) : ¬f.text.length < 12 → Passed (37 :: f.text) (f.text.drop 1)

namespace Passed

variable {rest rest' : List UInt8}

theorem suffix (h : Passed rest rest') : rest' <:+ rest := by
  cases h with
  | piece p rest => exact List.suffix_append _ _
  | lone => exact List.nil_suffix
  | long k rest => exact ⟨k.text.take 2, by rw [← List.append_assoc, List.take_append_drop]⟩
  | fields f hlen =>
      exact (List.drop_suffix 1 f.text).trans (List.suffix_cons 37 f.text)

theorem length_lt (h : Passed rest rest') : rest'.length < rest.length := by
  cases h with
  | piece p rest =>
      have hpos : 0 < p.text.length := by
        cases p <;> simp [Piece.text, Conversion.text]
      rw [List.length_append]
      omega
  | lone => exact Nat.one_pos
  | long k rest hlen =>
      rw [List.length_append, List.length_append, List.length_drop]
      omega
  | fields f hlen =>
      rw [List.length_cons, List.length_drop]
      omega

/-- What was passed hides no end of the format. -/
theorem cutShort (h : Passed rest rest') (hcut : CutShort rest') : CutShort rest := by
  cases h with
  | piece p rest => exact hcut.piece p
  | lone => exact absurd hcut not_cutShort_nil
  | long k rest hlen =>
      obtain ⟨spec, tail, htext, hbytes⟩ := k.text_eq
      have hrest : CutShort rest := by
        apply hcut.drop (k.text.drop 2)
        intro b hb
        rw [htext] at hb
        exact (hbytes b (by simp at hb; simp [hb])).2.1
      obtain ⟨arg, harg⟩ := k.num.exists_takes
      exact hrest.piece (.conv k arg harg)
  | fields f hlen =>
      have hnone : ∀ b ∈ f.text.drop 1, b ≠ 37 :=
        fun b hb ↦ (f.specByte b (List.mem_of_mem_drop hb)).2.1
      rw [← List.append_nil (f.text.drop 1)] at hcut
      exact absurd (hcut.drop _ hnone) not_cutShort_nil

end Passed

/-! ## Where `_p` stops -/

theorem dropWhile_append_zero {p : UInt8 → Bool} (hp : p 0 = false) (bs : List UInt8) :
    (bs ++ [0]).dropWhile p = bs.dropWhile p ++ [0] := by
  induction bs with
  | nil => simp [hp]
  | cons b bs ih =>
      cases hb : p b with
      | true =>
          rw [List.cons_append, List.dropWhile_cons_of_pos hb, List.dropWhile_cons_of_pos hb, ih]
      | false =>
          rw [List.cons_append, List.dropWhile_cons_of_neg (by rw [hb]; decide),
            List.dropWhile_cons_of_neg (by rw [hb]; decide), List.cons_append]

/-- Fields are passed, and the terminator never is. -/
theorem skipSpec_split (tail : List UInt8) :
    ∃ (f : Fields) (rest : List UInt8), tail = f.text ++ rest ∧
      skipSpec (37 :: (tail ++ [0])) = rest ++ [0] := by
  have hflags : tail = tail.takeWhile flags.contains ++ tail.dropWhile flags.contains :=
    List.takeWhile_append_dropWhile.symm
  have hwidth : tail.dropWhile flags.contains =
      (tail.dropWhile flags.contains).takeWhile isdigit ++
        (tail.dropWhile flags.contains).dropWhile isdigit :=
    List.takeWhile_append_dropWhile.symm
  have hflags_mem : ∀ b ∈ tail.takeWhile flags.contains, b ∈ flags := by
    intro b hb
    exact List.contains_iff_mem.mp (List.mem_takeWhile_imp hb)
  have hwidth_digit : ∀ b ∈ (tail.dropWhile flags.contains).takeWhile isdigit,
      isdigit b = true := fun b hb ↦ List.mem_takeWhile_imp hb
  generalize tail.takeWhile flags.contains = fl at hflags hflags_mem
  generalize hr : tail.dropWhile flags.contains = r at hflags hwidth hwidth_digit
  generalize r.takeWhile isdigit = width at hwidth hwidth_digit
  generalize hrest : r.dropWhile isdigit = rest at hwidth
  rw [hwidth] at hflags
  by_cases hdot : ∃ p, rest = 46 :: p
  · obtain ⟨p, rfl⟩ := hdot
    refine ⟨⟨fl, width, some (p.takeWhile isdigit), hflags_mem, hwidth_digit, ?_⟩,
      p.dropWhile isdigit, ?_, ?_⟩
    · rintro digits ⟨⟩ b hb
      exact List.mem_takeWhile_imp hb
    · rw [hflags, Fields.text, precisionText]
      simp only [List.append_assoc, List.cons_append, List.takeWhile_append_dropWhile]
    · unfold skipSpec
      rw [List.drop_succ_cons, List.drop_zero, dropWhile_append_zero (by decide), hr,
        dropWhile_append_zero (by decide), hrest]
      exact dropWhile_append_zero (by decide) p
  · refine ⟨⟨fl, width, none, hflags_mem, hwidth_digit, ?_⟩, rest, ?_, ?_⟩
    · rintro digits ⟨⟩
    · rw [hflags, Fields.text, precisionText, List.append_nil, List.append_assoc]
    · unfold skipSpec
      rw [List.drop_succ_cons, List.drop_zero, dropWhile_append_zero (by decide), hr,
        dropWhile_append_zero (by decide), hrest]
      dsimp only
      split
      · rename_i p heq
        cases rest with
        | nil => cases heq
        | cons b rest =>
            rw [List.cons_append, List.cons.injEq] at heq
            exact absurd ⟨rest, by rw [heq.1]⟩ hdot
      · rfl

theorem mem_of_strchrSet {set : List UInt8} {b : UInt8} (hb : b ≠ 0)
    (h : strchrSet set b = true) : b ∈ set := by
  rw [strchrSet, Bool.or_eq_true, beq_iff_eq, List.contains_iff_mem] at h
  exact h.resolve_left hb

theorem modified_cases (rest : List UInt8) (num : Num) :
    modified (rest ++ [0]) num = .error .format ∨
      ∃ letter rest', rest = letter :: rest' ∧ letter ∈ intfmts := by
  cases rest with
  | nil => exact .inl rfl
  | cons b rest =>
      by_cases hb : b ≠ 0 ∧ strchrSet intfmts b = true
      · exact .inr ⟨b, rest, rfl, mem_of_strchrSet hb.1 hb.2⟩
      · exact .inl (if_neg hb)

/-- Behind the fields the format ends, or there is a complete conversion, or an
error is found. -/
theorem conversion_cases (rest : List UInt8) (hzero : (0 : UInt8) ∉ rest) :
    rest = [] ∨ conversion (rest ++ [0]) = .error .format ∨
      ∃ (modifier : Modifier) (letter : UInt8) (rest' : List UInt8),
        rest = modifier.text ++ letter :: rest' ∧
          (letter ∈ intfmts ∨ modifier = .none ∧ letter ∈ doublefmts) := by
  cases rest with
  | nil => exact .inl rfl
  | cons b rest =>
      right
      have hb : b ≠ 0 := by
        rintro rfl
        simp at hzero
      rw [List.cons_append, conversion]
      by_cases hint : strchrSet intfmts b = true
      · exact .inr ⟨.none, b, rest, rfl, .inl (mem_of_strchrSet hb hint)⟩
      rw [if_neg hint]
      by_cases hdouble : strchrSet doublefmts b = true
      · exact .inr ⟨.none, b, rest, rfl, .inr ⟨rfl, mem_of_strchrSet hb hdouble⟩⟩
      rw [if_neg hdouble]
      by_cases hh : b = 104
      · subst hh
        rw [if_pos rfl]
        by_cases hhh : (rest ++ [0]).head? = some 104
        · cases rest with
          | nil => cases hhh
          | cons c rest =>
              obtain rfl : c = 104 := Option.some.inj hhh
              rw [if_pos hhh]
              rcases modified_cases rest .int with h | ⟨letter, rest', rfl, hmem⟩
              · exact .inl h
              · exact .inr ⟨.hh, letter, rest', rfl, .inl hmem⟩
        · rw [if_neg hhh]
          rcases modified_cases rest .int with h | ⟨letter, rest', rfl, hmem⟩
          · exact .inl h
          · exact .inr ⟨.h, letter, rest', rfl, .inl hmem⟩
      rw [if_neg hh]
      by_cases hl : b = 108
      · subst hl
        rw [if_pos rfl]
        by_cases hll : (rest ++ [0]).head? = some 108
        · cases rest with
          | nil => cases hll
          | cons c rest =>
              obtain rfl : c = 108 := Option.some.inj hll
              rw [if_pos hll]
              rcases modified_cases rest .longLong with h | ⟨letter, rest', rfl, hmem⟩
              · exact .inl h
              · exact .inr ⟨.ll, letter, rest', rfl, .inl hmem⟩
        · rw [if_neg hll]
          rcases modified_cases rest .long with h | ⟨letter, rest', rfl, hmem⟩
          · exact .inl h
          · exact .inr ⟨.l, letter, rest', rfl, .inl hmem⟩
      · exact .inl (if_neg hl)

theorem vaArg_cases (num : Num) (ap : List VaArg) :
    vaArg num ap = .error (.fault .argument) ∨
      ∃ arg ap', ap = arg :: ap' ∧ num.Takes arg := by
  cases ap with
  | nil => cases num <;> exact .inl rfl
  | cons arg ap =>
      by_cases h : num.Takes arg
      · exact .inr ⟨arg, ap, rfl, h⟩
      · left
        cases num <;> cases arg <;> first | rfl | exact absurd trivial h

/-! ## One round -/

/-- Every `%b` is given a length that its pointer has bytes for. -/
def Covered : List VaArg → Prop
  | .ptr mem :: .size n :: ap => n ≤ mem.length ∧ Covered ap
  | _ :: ap => Covered ap
  | [] => True

theorem Covered.tail {arg : VaArg} {ap : List VaArg} (h : Covered (arg :: ap)) : Covered ap := by
  cases arg with
  | ptr mem =>
      cases ap with
      | nil => trivial
      | cons next ap =>
          cases next with
          | size n => exact h.2
          | _ => exact h
  | _ => exact h

/-- `c` behind the interpolation, where it is moved on twice. -/
def Scan.advance (s : Scan) : Scan := { s with c := s.c.drop 2, touched := true }

/-- A round that starts with `rest` before the terminator and reads no byte
outside.  It passes some of it, unless the format is cut short. -/
def Within (rest : List UInt8) : Except Stop Scan → Prop
  | .error e => e ≠ .fault .read
  | .ok s => Covered s.ap ∧
      (CutShort rest ∨ ∃ rest', s.c = rest' ++ [0] ∧ Passed rest rest')

section Round

variable (vsnprintf : List UInt8 → List VaArg → List UInt8) {s : Scan}

theorem printfSpec_conversion {e : Stop} (h : conversion (skipSpec s.c) = .error e) :
    printfSpec vsnprintf s = .error e := by
  simp only [printfSpec, h, bind, Except.bind]

theorem printfSpec_vaArg {p : List UInt8} {num : Num} {e : Stop}
    (h : conversion (skipSpec s.c) = .ok (p, num)) (harg : vaArg num s.ap = .error e) :
    printfSpec vsnprintf s = .error e := by
  simp only [printfSpec, h, harg, bind, Except.bind]

/-- The terminator is taken for the letter of an integer conversion. -/
theorem conversion_fields {f : Fields} (hc : s.c = 37 :: (f.text ++ [0])) :
    conversion (skipSpec s.c) = .ok ([0], .int) := by
  rw [hc, skipSpec_fields f (by decide)]
  rfl

theorem printfSpec_fields {f : Fields} {arg : VaArg} {ap : List VaArg}
    (hc : s.c = 37 :: (f.text ++ [0])) (hap : s.ap = arg :: ap) (harg : Num.int.Takes arg) :
    ∃ curarg, printfSpec vsnprintf s =
      if f.text.length < 12 then
        .ok { s with c := s.c.drop f.text.length, ap := ap, curarg := curarg }
      else .ok { s with ap := ap } := by
  have hlen : s.c.length - [(0 : UInt8)].length + 1 = f.text.length + 2 := by
    rw [hc, List.length_cons, List.length_append, List.length_singleton]
    omega
  have hiff : f.text.length + 2 < 14 ↔ f.text.length < 12 := by omega
  refine ⟨sdscatlen s.curarg (vsnprintf (strBytes (s.c.take (f.text.length + 2))) s.ap), ?_⟩
  simp only [printfSpec, conversion_fields hc, hap, vaArg_takes harg, bind, Except.bind, hlen,
    hiff, Nat.add_sub_cancel]

theorem within_printfSpec {tail : List UInt8} (hc : s.c = 37 :: (tail ++ [0]))
    (hzero : (0 : UInt8) ∉ tail) (hne : tail ≠ []) (hcov : Covered s.ap) :
    Within (37 :: tail) ((printfSpec vsnprintf s).map Scan.advance) := by
  obtain ⟨f, rest, rfl, hskip⟩ := skipSpec_split tail
  rw [← hc] at hskip
  rcases conversion_cases rest fun h ↦ hzero (by simp [h]) with
    rfl | herr | ⟨modifier, letter, rest, rfl, hletter⟩
  · rw [List.append_nil] at hc hne ⊢
    rcases vaArg_cases .int s.ap with harg | ⟨arg, ap, hap, harg⟩
    · rw [printfSpec_vaArg vsnprintf (conversion_fields hc) harg]
      exact fun h ↦ by cases h
    · obtain ⟨curarg, hrun⟩ := printfSpec_fields vsnprintf hc hap harg
      rw [hap] at hcov
      by_cases hlen : f.text.length < 12
      · rw [hrun, if_pos hlen]
        exact ⟨hcov.tail, .inl ⟨[], f, hne, hlen, rfl⟩⟩
      · rw [hrun, if_neg hlen]
        refine ⟨hcov.tail, .inr ⟨f.text.drop 1, ?_, .fields f hlen⟩⟩
        simp only [Scan.advance, hc, List.drop_succ_cons]
        rw [List.drop_append_of_le_length (by omega)]
  · rw [printfSpec_conversion vsnprintf (by rw [hskip, herr])]
    exact fun h ↦ by cases h
  · -- The letter makes it a complete conversion.
    let k : Conversion := ⟨f, modifier, letter, hletter⟩
    have htext : 37 :: (f.text ++ (modifier.text ++ letter :: rest)) = k.text ++ rest := by
      simp [k, Conversion.text]
    have hc' : s.c = k.text ++ (rest ++ [0]) := by
      rw [hc, ← List.cons_append, htext, List.append_assoc]
    have hconv : conversion (skipSpec s.c) = .ok (letter :: (rest ++ [0]), k.num) := by
      rw [hskip, List.append_assoc]
      exact conversion_text k (rest ++ [0])
    rw [htext]
    rcases vaArg_cases k.num s.ap with harg | ⟨arg, ap, hap, harg⟩
    · rw [printfSpec_vaArg vsnprintf hconv harg]
      exact fun h ↦ by cases h
    · rw [printfSpec_text vsnprintf hc' hap harg]
      rw [hap] at hcov
      by_cases hshort : k.text.length < 14
      · rw [if_pos hshort]
        refine ⟨hcov.tail, .inr ⟨rest, ?_, .piece (.conv k arg harg) rest⟩⟩
        have hpos : 2 ≤ k.text.length := by
          simp [k, Conversion.text]
          omega
        simp only [Scan.advance, List.drop_drop, Nat.sub_add_cancel hpos, hc', List.drop_left]
      · rw [if_neg hshort]
        refine ⟨hcov.tail, .inr ⟨k.text.drop 2 ++ rest, ?_, .long k rest hshort⟩⟩
        simp only [Scan.advance, hc', List.append_assoc]
        rw [List.drop_append_of_le_length (by omega)]

theorem within_interpolate {spec : UInt8} {tail : List UInt8}
    (hc : s.c = 37 :: spec :: (tail ++ [0])) (hzero : (0 : UInt8) ∉ spec :: tail)
    (hcov : Covered s.ap) :
    Within (37 :: spec :: tail) ((interpolate vsnprintf s spec).map Scan.advance) := by
  have hdrop : s.c.drop 2 = tail ++ [0] := by
    rw [hc]
    rfl
  unfold interpolate
  by_cases hstr : spec = 115
  · subst hstr
    rw [if_pos rfl]
    cases hap : s.ap with
    | nil => exact fun h ↦ by cases h
    | cons arg ap =>
        rw [hap] at hcov
        cases arg with
        | ptr mem => exact ⟨hcov.tail, .inr ⟨tail, hdrop, .piece (.str mem) tail⟩⟩
        | _ => exact fun h ↦ by cases h
  rw [if_neg hstr]
  by_cases hbin : spec = 98
  · subst hbin
    rw [if_pos rfl]
    cases hap : s.ap with
    | nil => exact fun h ↦ by cases h
    | cons arg ap =>
        rw [hap] at hcov
        cases arg with
        | ptr mem =>
            cases ap with
            | nil => exact fun h ↦ by cases h
            | cons next ap =>
                cases next with
                | size n =>
                    simp only [if_pos hcov.1]
                    exact ⟨hcov.2, .inr ⟨tail, hdrop, .piece (.bin mem n hcov.1) tail⟩⟩
                | _ => exact fun h ↦ by cases h
        | _ => exact fun h ↦ by cases h
  rw [if_neg hbin]
  by_cases hpercent : spec = 37
  · subst hpercent
    rw [if_pos rfl]
    exact ⟨hcov, .inr ⟨tail, hdrop, .piece .percent tail⟩⟩
  · rw [if_neg hpercent]
    exact within_printfSpec vsnprintf (by rw [hc, List.cons_append]) hzero (by simp) hcov

theorem scanStep_byte {b : UInt8} {c : List UInt8} (hc : s.c = b :: c)
    (hb : b ≠ 37 ∨ c.head? = some 0) :
    ∃ s', scanStep vsnprintf s = .ok s' ∧ s'.c = c ∧ s'.ap = s.ap := by
  unfold scanStep
  rw [hc]
  simp only [if_pos hb]
  split
  · split
    · exact ⟨_, rfl, rfl, rfl⟩
    · exact ⟨_, rfl, rfl, rfl⟩
  · exact ⟨_, rfl, rfl, rfl⟩

theorem scanStep_advance {spec : UInt8} {c : List UInt8} (hc : s.c = 37 :: spec :: c)
    (hspec : spec ≠ 0) :
    scanStep vsnprintf s = (interpolate vsnprintf s spec).map Scan.advance := by
  unfold scanStep
  rw [hc]
  have hhead : ¬((37 : UInt8) ≠ 37 ∨ (spec :: c).head? = some 0) := by
    simpa using hspec
  simp only [if_neg hhead]
  cases interpolate vsnprintf s spec <;> rfl

theorem within_scanStep {rest : List UInt8} (hc : s.c = rest ++ [0])
    (hzero : (0 : UInt8) ∉ rest) (hne : rest ≠ []) (hcov : Covered s.ap) :
    Within rest (scanStep vsnprintf s) := by
  cases rest with
  | nil => exact absurd rfl hne
  | cons b rest =>
      rw [List.mem_cons, not_or] at hzero
      have hbyte : b ≠ 37 ∨ (rest ++ [0]).head? = some 0 → Passed (b :: rest) rest →
          Within (b :: rest) (scanStep vsnprintf s) := by
        intro hb hpassed
        obtain ⟨s', hs, hc', hap⟩ := scanStep_byte vsnprintf hc hb
        rw [hs]
        refine ⟨?_, .inr ⟨rest, hc', hpassed⟩⟩
        rwa [hap]
      by_cases hb : b = 37
      · subst hb
        cases rest with
        | nil => exact hbyte (.inr rfl) .lone
        | cons spec tail =>
            have hspec : spec ≠ 0 := by
              rintro rfl
              simp at hzero
            rw [scanStep_advance vsnprintf hc hspec]
            exact within_interpolate vsnprintf hc hzero.2 hcov
      · obtain ⟨p, hp⟩ := exists_byte (Ne.symm hzero.1) hb
        apply hbyte (.inl hb)
        have hpassed := Passed.piece p rest
        rwa [hp] at hpassed

end Round

/-! ## The whole scan -/

/-- The scan of a format with a terminator. -/
def Scan.start (format : List UInt8) (ap : List VaArg) : Scan :=
  ⟨format ++ [0], ap, sdsempty, false, [], 0⟩

/-- The scan ends, at the terminator if it is not ended early, and reads no byte
behind it. -/
def StaysWithin (format : List UInt8) : Prop :=
  ∀ vsnprintf ap, Covered ap →
    match scanLoop vsnprintf (format.length + 2) (.start format ap) with
    | .error e => e ≠ .fault .read
    | .ok s => s.c = [0]

theorem scanLoop_within {vsnprintf : List UInt8 → List VaArg → List UInt8} {fuel : ℕ} {s : Scan}
    {rest : List UInt8} (hc : s.c = rest ++ [0]) (hzero : (0 : UInt8) ∉ rest)
    (hcut : ¬CutShort rest) (hcov : Covered s.ap) (hfuel : rest.length < fuel) :
    match scanLoop vsnprintf fuel s with
    | .error e => e ≠ .fault .read
    | .ok s => s.c = [0] := by
  induction fuel generalizing s rest with
  | zero => omega
  | succ fuel ih =>
      cases rest with
      | nil =>
          rw [scanLoop_end vsnprintf fuel hc]
          exact hc
      | cons b rest =>
          have hb : b ≠ 0 := by
            rintro rfl
            simp at hzero
          have hround := within_scanStep vsnprintf hc hzero (by simp) hcov
          cases hs : scanStep vsnprintf s with
          | error e =>
              rw [hs] at hround
              have hloop : scanLoop vsnprintf (fuel + 1) s = .error e := by
                simp only [scanLoop, hc, List.cons_append, if_neg hb, hs]
                rfl
              rw [hloop]
              exact hround
          | ok s' =>
              rw [hs] at hround
              obtain ⟨hcov', hcut' | ⟨rest', hc', hpassed⟩⟩ := hround
              · exact absurd hcut' hcut
              rw [scanLoop_step vsnprintf fuel hc hb hs]
              have hlt := hpassed.length_lt
              apply ih hc'
              · exact fun h ↦ hzero (hpassed.suffix.subset h)
              · exact fun h ↦ hcut (hpassed.cutShort h)
              · exact hcov'
              · omega

theorem Covered.cons {ap : List VaArg} (h : Covered ap) (arg : VaArg)
    (hhead : ∀ n ap', ap ≠ .size n :: ap') : Covered (arg :: ap) := by
  cases arg with
  | ptr mem =>
      cases ap with
      | nil => trivial
      | cons next ap =>
          cases next with
          | size n => exact absurd rfl (hhead n ap)
          | _ => exact h
  | _ => exact h

/-- The arguments of pieces, and an `int` behind them. -/
theorem covered_pieces (ps : List Piece) :
    Covered (ps.flatMap Piece.args ++ [.int 0]) ∧
      ∀ n ap, ps.flatMap Piece.args ++ [.int 0] ≠ .size n :: ap := by
  induction ps with
  | nil => exact ⟨trivial, fun n ap h ↦ by cases h⟩
  | cons p ps ih =>
      obtain ⟨hcov, hhead⟩ := ih
      rw [List.flatMap_cons, List.append_assoc]
      generalize ps.flatMap Piece.args ++ [VaArg.int 0] = ap at hcov hhead
      cases p with
      | str mem => exact ⟨hcov.cons _ hhead, fun n ap h ↦ by cases h⟩
      | bin mem size hsize => exact ⟨⟨hsize, hcov⟩, fun n ap h ↦ by cases h⟩
      | conv k arg harg =>
          refine ⟨hcov.cons _ hhead, fun n ap h ↦ ?_⟩
          obtain rfl : arg = .size n := (List.cons.inj h).1
          cases hnum : k.num <;> (rw [hnum] at harg; cases harg)
      | _ => exact ⟨hcov, hhead⟩

/-- The fields of a format that is cut short are passed with the terminator. -/
theorem scanLoop_fields {s : Scan} {f : Fields} {arg : VaArg} {ap : List VaArg} (fuel : ℕ)
    (hc : s.c = 37 :: (f.text ++ [0])) (hap : s.ap = arg :: ap) (harg : Num.int.Takes arg)
    (hne : f.text ≠ []) (hlen : f.text.length < 12) :
    scanLoop (fun _ _ ↦ []) (fuel + 2) s = .error (.fault .read) := by
  obtain ⟨curarg, hrun⟩ := printfSpec_fields (fun _ _ ↦ []) hc hap harg
  rw [if_pos hlen] at hrun
  have hend : (s.c.drop f.text.length).drop 2 = [] := by
    rw [List.drop_drop, hc]
    simp
  cases htext : f.text with
  | nil => exact absurd htext hne
  | cons spec tail =>
      obtain ⟨hzero, hpercent, hs, hb⟩ := f.specByte spec (by simp [htext])
      have hc' : s.c = 37 :: spec :: (tail ++ [0]) := by
        rw [hc, htext]
        rfl
      have hstep := scanStep_advance (fun _ _ ↦ []) hc' hzero
      rw [interpolate, if_neg hs, if_neg hb, if_neg hpercent, hrun] at hstep
      rw [scanLoop_step _ _ hc' (by decide) hstep]
      simp only [scanLoop, Scan.advance, hend]

/-- The scan stays within the format, whatever the arguments, if and only if the
format is not cut short. -/
theorem staysWithin_iff {format : List UInt8} (hzero : (0 : UInt8) ∉ format) :
    StaysWithin format ↔ ¬CutShort format := by
  constructor
  · rintro hstays ⟨ps, f, hne, hlen, rfl⟩
    have hwithin := hstays (fun _ _ ↦ []) (ps.flatMap Piece.args ++ [.int 0])
      (covered_pieces ps).1
    have hstart : (Scan.start (ps.flatMap Piece.text ++ 37 :: f.text)
        (ps.flatMap Piece.args ++ [.int 0])).At
        (ps.flatMap Piece.text ++ 37 :: (f.text ++ [0])) (ps.flatMap Piece.args ++ [.int 0])
        .empty := by
      refine ⟨?_, rfl, rfl, rfl, rfl⟩
      simp [Scan.start]
    obtain ⟨n, s, hn, hrun, hs⟩ :=
      hstart.pieces (fun _ _ ↦ []) ps (.inr fun _ _ _ ↦ rfl)
    have hfuel : (ps.flatMap Piece.text ++ 37 :: f.text).length + 2 =
        (ps.flatMap Piece.text).length - n + f.text.length + 1 + 2 + n := by
      rw [List.length_append, List.length_cons]
      omega
    rw [hfuel, hrun, scanLoop_fields _ hs.c hs.ap trivial hne hlen] at hwithin
    exact hwithin rfl
  · intro hcut vsnprintf ap hcov
    exact scanLoop_within rfl hzero hcut hcov (by omega)

/-- `GET %s`. -/
theorem staysWithin_get : StaysWithin [71, 69, 84, 32, 37, 115] := by
  apply (staysWithin_iff (by decide)).mpr
  intro h
  have hstr : CutShort [37, 115] :=
    CutShort.drop [71, 69, 84, 32] h (by simp)
  exact not_cutShort_nil hstr.str

/-- `%-` with an `int`. -/
theorem scan_leaves_format :
    scanLoop (fun _ _ ↦ []) 4 (.start [37, 45] [.int 0]) = .error (.fault .read) ∧
      ¬StaysWithin [37, 45] := by
  have hread : scanLoop (fun _ _ ↦ []) 4 (.start [37, 45] [.int 0]) = .error (.fault .read) := rfl
  refine ⟨hread, fun h ↦ ?_⟩
  have hwithin := h (fun _ _ ↦ []) [.int 0] trivial
  rw [List.length_cons, List.length_singleton, hread] at hwithin
  exact hwithin rfl

end Format

end MuxHiredis
