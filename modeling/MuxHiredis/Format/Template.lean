import MuxHiredis.Lib.Words
import MuxHiredis.Format.Conversion
import MuxHiredis.Format.Length
import MuxHiredis.Format.RoundTrip

/-!
# Formats in pieces

A format is made of literal bytes, spaces, `%s`, `%b`, `%%` and conversions that
are left to `vsnprintf`.  The scan of `redisvFormatCommand` reads one piece after
the other, and the arguments are the words that the pieces make.
-/

namespace MuxHiredis

namespace Format

/-! ## The arguments that the scan arrives at -/

section Arguments

variable (vsnprintf : List UInt8 → List VaArg → List UInt8)

/-- The arguments of the command, with the last one. -/
def Scan.finish (s : Scan) : List (List UInt8) :=
  (if s.touched then s.push else s).curargv.map Sds.bytes

def commandArguments (format : List UInt8) (ap : List VaArg) : Except Stop (List (List UInt8)) :=
  (scanLoop vsnprintf (format.length + 2) ⟨format ++ [0], ap, sdsempty, false, [], 0⟩).map
    Scan.finish

/-- `totlen` is kept for the arguments so far. -/
def Scan.Summed (s : Scan) : Prop := s.totlen = (s.curargv.map Sds.bytes).foldl addBulk 0

theorem Scan.Summed.push {s : Scan} (h : s.Summed) : s.push.Summed := by
  unfold Summed at h ⊢
  simp only [Scan.push, List.map_append, List.map_cons, List.map_nil, List.foldl_append,
    List.foldl_cons, List.foldl_nil, h]

theorem printfSpec_curargv {s s' : Scan} (h : printfSpec vsnprintf s = .ok s') :
    s'.curargv = s.curargv ∧ s'.totlen = s.totlen := by
  obtain ⟨⟨p, num⟩, -, h⟩ := bind_eq_ok h
  obtain ⟨ap, -, h⟩ := bind_eq_ok h
  simp only at h
  split at h <;> (cases h; exact ⟨rfl, rfl⟩)

theorem interpolate_curargv {s s' : Scan} {spec : UInt8}
    (h : interpolate vsnprintf s spec = .ok s') :
    s'.curargv = s.curargv ∧ s'.totlen = s.totlen := by
  unfold interpolate at h
  split at h
  · split at h
    · cases h
      exact ⟨rfl, rfl⟩
    · cases h
  split at h
  · split at h
    · split at h
      · cases h
        exact ⟨rfl, rfl⟩
      · cases h
    · cases h
  split at h
  · cases h
    exact ⟨rfl, rfl⟩
  · exact printfSpec_curargv vsnprintf h

theorem Scan.Summed.step {s s' : Scan} (h : s.Summed) (hs : scanStep vsnprintf s = .ok s') :
    s'.Summed := by
  unfold scanStep at hs
  split at hs
  · cases hs
  split at hs
  · split at hs
    · split at hs
      · cases hs
        exact h.push
      · cases hs
        exact h
    · cases hs
      exact h
  · split at hs
    · cases hs
    · obtain ⟨t, ht, hs⟩ := bind_eq_ok hs
      obtain ⟨hargv, htot⟩ := interpolate_curargv vsnprintf ht
      cases hs
      unfold Summed at h ⊢
      simp only [hargv, htot, h]

theorem Scan.Summed.loop {fuel : ℕ} {s s' : Scan} (h : s.Summed)
    (hs : scanLoop vsnprintf fuel s = .ok s') : s'.Summed := by
  induction fuel generalizing s with
  | zero =>
      cases hs
      exact h
  | succ fuel ih =>
      unfold scanLoop at hs
      split at hs
      · cases hs
      split at hs
      · cases hs
        exact h
      · obtain ⟨t, ht, hs⟩ := bind_eq_ok hs
        exact ih (h.step vsnprintf ht) hs

/-- The command for the arguments, if the scan arrived at any. -/
def commandOf (malloc : ℕ → Bool) : Except Stop (List (List UInt8)) → Result
  | .error .format => .err (-2)
  | .error (.fault f) => .fault f
  | .ok args => redisFormatCommandArgv malloc args (some (args.map List.length))

theorem redisvFormatCommand_eq (malloc : ℕ → Bool) (format : List UInt8) (ap : List VaArg) :
    redisvFormatCommand malloc vsnprintf format ap =
      commandOf malloc (commandArguments vsnprintf format ap) := by
  unfold redisvFormatCommand commandArguments
  cases hrun : scanLoop vsnprintf (format.length + 2)
      ⟨format ++ [0], ap, sdsempty, false, [], 0⟩ with
  | error e => cases e <;> rfl
  | ok s =>
      have hsum : (if s.touched then s.push else s).Summed := by
        have hs : s.Summed := Scan.Summed.loop vsnprintf (by rfl) hrun
        split
        · exact hs.push
        · exact hs
      simp only [Except.map, Scan.finish, commandOf, redisFormatCommandArgv_eq, arguments_length]
      generalize (if s.touched then s.push else s) = s at hsum ⊢
      unfold Scan.Summed at hsum
      have htot : wrap32 (s.totlen + headerLen s.curargv.length) =
          wrap32 (MuxHiredis.redisFormatCommandArgv (s.curargv.map Sds.bytes)).length := by
        have hwrap := congrArg (· % 2 ^ 32) (foldl_addBulk_wrap (s.curargv.map Sds.bytes) 0)
        simp only [wrap32_emod, ← hsum] at hwrap
        apply wrap32_congr
        rw [format_length, List.length_map]
        omega
      rw [htot]

end Arguments

/-! ## Pieces -/

/-- A piece of a format, with the arguments it takes. -/
inductive Piece where
  | lit (b : UInt8) (hb : b ≠ 0 ∧ b ≠ 37 ∧ b ≠ 32)
  | space
  | str (mem : List UInt8)
  | bin (mem : List UInt8) (size : ℕ) (hsize : size ≤ mem.length)
  | percent
  | conv (k : Conversion) (arg : VaArg) (harg : k.num.Takes arg)

namespace Piece

def text : Piece → List UInt8
  | lit b _ => [b]
  | space => [32]
  | str _ => [37, 115]
  | bin _ _ _ => [37, 98]
  | percent => [37, 37]
  | conv k _ _ => k.text

def args : Piece → List VaArg
  | lit _ _ | space | percent => []
  | str mem => [.ptr mem]
  | bin mem size _ => [.ptr mem, .size size]
  | conv _ arg _ => [arg]

/-- What a piece adds to an argument, or that it ends one. -/
def mark (vsnprintf : List UInt8 → List VaArg → List UInt8) : Piece → Option (List UInt8)
  | lit b _ => some [b]
  | space => none
  | str mem => some (strBytes mem)
  | bin mem size _ => some (mem.take size)
  | percent => some [37]
  | conv k arg _ => some (vsnprintf k.text [arg])

/-- No conversion that is left to `vsnprintf`. -/
def Plain : Piece → Prop
  | conv _ _ _ => False
  | _ => True

/-- A conversion that fits `_format`. -/
def Short : Piece → Prop
  | conv k _ _ => k.text.length < 14
  | _ => True

theorem Plain.short {p : Piece} (h : p.Plain) : p.Short := by
  cases p with
  | conv k arg harg => cases h
  | _ => trivial

end Piece

/-- A byte of the format that is copied, or a space. -/
def byteMark (b : UInt8) : Option (List UInt8) := if b = 32 then none else some [b]

/-- The marks that the scan makes of a piece: from a conversion that is too long
it takes the argument and the first two bytes away. -/
def Piece.marks (vsnprintf : List UInt8 → List VaArg → List UInt8) (p : Piece) :
    List (Option (List UInt8)) :=
  match p with
  | conv k _ _ =>
      if k.text.length < 14 then [p.mark vsnprintf]
      else some [] :: (k.text.drop 2).map byteMark
  | _ => [p.mark vsnprintf]

theorem Piece.Short.marks {p : Piece} (h : p.Short)
    (vsnprintf : List UInt8 → List VaArg → List UInt8) :
    p.marks vsnprintf = [p.mark vsnprintf] := by
  cases p with
  | conv k arg harg => exact if_pos h
  | _ => rfl

/-- `vsnprintf` takes the argument of the conversion it is given, and no other. -/
def Local (vsnprintf : List UInt8 → List VaArg → List UInt8) : Prop :=
  ∀ spec arg ap, vsnprintf spec (arg :: ap) = vsnprintf spec [arg]

/-! ## The scan of a piece -/

open Words (Collected)

/-- The scan at `c`, with the words it has collected. -/
structure Scan.At (s : Scan) (c : List UInt8) (ap : List VaArg) (w : Collected UInt8) :
    Prop where
  c : s.c = c
  ap : s.ap = ap
  curargv : s.curargv.map Sds.bytes = w.complete
  touched : s.touched = w.word.isSome
  curarg : s.curarg.bytes = w.word.getD []

namespace Scan.At

variable (vsnprintf : List UInt8 → List VaArg → List UInt8) {s : Scan} {c : List UInt8}
  {ap : List VaArg} {w : Collected UInt8}

theorem finish (h : s.At c ap w) : s.finish = w.all := by
  unfold Scan.finish Collected.all
  rw [h.touched]
  cases hword : w.word with
  | none => simpa using h.curargv
  | some word =>
      have hcurarg := h.curarg
      rw [hword] at hcurarg
      simp [Scan.push, h.curargv, hcurarg]

theorem push (h : s.At c ap w) (ht : s.touched = true) (c' : List UInt8) :
    Scan.At { s.push with c := c' } c' ap (w.read none) := by
  refine ⟨rfl, h.ap, ?_, rfl, rfl⟩
  rw [Collected.read, ← Collected.all, ← h.finish, Scan.finish, if_pos ht]

theorem append {bytes : List UInt8} {curarg : Sds} (h : s.At c ap w)
    (hcur : curarg.bytes = s.curarg.bytes ++ bytes) (c' : List UInt8) (ap' : List VaArg) :
    Scan.At { s with c := c', ap := ap', curarg := curarg, touched := true } c' ap'
      (w.read (some bytes)) := by
  refine ⟨rfl, rfl, h.curargv, rfl, ?_⟩
  rw [hcur, h.curarg]
  rfl

theorem step_byte {b : UInt8} (h : s.At (b :: c) ap w) (hb : b ≠ 37 ∨ c.head? = some 0) :
    ∃ s', scanStep vsnprintf s = .ok s' ∧ s'.At c ap (w.read (byteMark b)) := by
  unfold scanStep byteMark
  rw [h.c]
  simp only [if_pos hb]
  by_cases hspace : b = 32
  · rw [if_pos hspace, if_pos hspace]
    cases ht : s.touched with
    | true => exact ⟨_, rfl, h.push ht c⟩
    | false =>
        have hword : w.word = none := by
          have := h.touched
          rw [ht] at this
          simpa using this.symm
        refine ⟨_, rfl, rfl, h.ap, ?_, ?_, ?_⟩
        · rw [Collected.read, hword, Option.toList_none, List.append_nil]
          exact h.curargv
        · rfl
        · rw [h.curarg, hword]
          rfl
  · rw [if_neg hspace, if_neg hspace]
    have hat := h.append (sdscatlen_bytes s.curarg [b]) c s.ap
    rw [h.ap] at hat
    refine ⟨_, rfl, ?_⟩
    simpa only [h.ap] using hat

theorem step_interpolate {spec : UInt8} {s' : Scan}
    (hc : s.c = 37 :: spec :: c) (hspec : spec ≠ 0)
    (hs : interpolate vsnprintf s spec = .ok s') :
    scanStep vsnprintf s = .ok { s' with c := s'.c.drop 2, touched := true } := by
  unfold scanStep
  rw [hc]
  have hhead : ¬((37 : UInt8) ≠ 37 ∨ (spec :: c).head? = some 0) := by
    simpa using hspec
  simp only [if_neg hhead, hs]
  rfl

theorem step_str {mem : List UInt8} (h : s.At (37 :: 115 :: c) (.ptr mem :: ap) w) :
    ∃ s', scanStep vsnprintf s = .ok s' ∧ s'.At c ap (w.read (some (strBytes mem))) := by
  have hs : interpolate vsnprintf s 115 = .ok { s with
      ap := ap
      curarg :=
        if 0 < (strBytes mem).length then sdscatlen s.curarg (strBytes mem) else s.curarg } := by
    simp [interpolate, h.ap]
  refine ⟨_, step_interpolate vsnprintf h.c (by decide) hs, ?_⟩
  simp only [h.c, List.drop_succ_cons, List.drop_zero]
  apply h.append
  split
  · exact sdscatlen_bytes _ _
  · rename_i hpos
    rw [List.length_eq_zero_iff.mp (Nat.eq_zero_of_not_pos hpos), List.append_nil]

theorem step_bin {mem : List UInt8} {size : ℕ} (hsize : size ≤ mem.length)
    (h : s.At (37 :: 98 :: c) (.ptr mem :: .size size :: ap) w) :
    ∃ s', scanStep vsnprintf s = .ok s' ∧ s'.At c ap (w.read (some (mem.take size))) := by
  have hs : interpolate vsnprintf s 98 = .ok { s with
      ap := ap
      curarg := if 0 < size then sdscatlen s.curarg (mem.take size) else s.curarg } := by
    simp [interpolate, h.ap, hsize]
  refine ⟨_, step_interpolate vsnprintf h.c (by decide) hs, ?_⟩
  simp only [h.c, List.drop_succ_cons, List.drop_zero]
  apply h.append
  split
  · exact sdscatlen_bytes _ _
  · rename_i hpos
    rw [Nat.eq_zero_of_not_pos hpos, List.take_zero, List.append_nil]

theorem step_percent (h : s.At (37 :: 37 :: c) ap w) :
    ∃ s', scanStep vsnprintf s = .ok s' ∧ s'.At c ap (w.read (some [37])) := by
  have hs : interpolate vsnprintf s 37 = .ok { s with curarg := sdscatlen s.curarg [37] } := by
    simp [interpolate]
  refine ⟨_, step_interpolate vsnprintf h.c (by decide) hs, ?_⟩
  simp only [h.c, List.drop_succ_cons, List.drop_zero]
  have hat := h.append (sdscatlen_bytes s.curarg [37]) c s.ap
  rwa [h.ap] at hat ⊢

theorem interpolate_conv {k : Conversion} {arg : VaArg} (harg : k.num.Takes arg)
    (h : s.At (k.text ++ c) (arg :: ap) w) :
    ∃ spec tail, k.text = 37 :: spec :: tail ∧ spec ≠ 0 ∧
      interpolate vsnprintf s spec =
        if k.text.length < 14 then
          .ok { s with
            c := s.c.drop (k.text.length - 2)
            ap := ap
            curarg := sdscatlen s.curarg (vsnprintf k.text s.ap) }
        else .ok { s with ap := ap } := by
  obtain ⟨spec, tail, htext, hbytes⟩ := k.text_eq
  obtain ⟨hzero, hpercent, hs, hb⟩ := hbytes spec (by simp)
  refine ⟨spec, tail, htext, hzero, ?_⟩
  rw [interpolate, if_neg hs, if_neg hb, if_neg hpercent]
  exact printfSpec_text vsnprintf h.c h.ap harg

theorem step_short {k : Conversion} {arg : VaArg} (harg : k.num.Takes arg)
    (hshort : k.text.length < 14) (h : s.At (k.text ++ c) (arg :: ap) w) :
    ∃ s', scanStep vsnprintf s = .ok s' ∧
      s'.At c ap (w.read (some (vsnprintf k.text (arg :: ap)))) := by
  obtain ⟨spec, tail, htext, hzero, hs⟩ := interpolate_conv vsnprintf harg h
  have hc : s.c = 37 :: spec :: (tail ++ c) := by
    rw [h.c, htext]
    rfl
  rw [if_pos hshort] at hs
  refine ⟨_, step_interpolate vsnprintf hc hzero hs, ?_⟩
  have hdrop : (s.c.drop (k.text.length - 2)).drop 2 = c := by
    rw [List.drop_drop, Nat.sub_add_cancel (by simp [htext]), h.c, List.drop_left]
  simp only [hdrop]
  apply h.append
  rw [sdscatlen_bytes, h.ap]

theorem step_long {k : Conversion} {arg : VaArg} (harg : k.num.Takes arg)
    (hlong : ¬k.text.length < 14) (h : s.At (k.text ++ c) (arg :: ap) w) :
    ∃ s', scanStep vsnprintf s = .ok s' ∧
      s'.At (k.text.drop 2 ++ c) ap (w.read (some [])) := by
  obtain ⟨spec, tail, htext, hzero, hs⟩ := interpolate_conv vsnprintf harg h
  have hc : s.c = 37 :: spec :: (tail ++ c) := by
    rw [h.c, htext]
    rfl
  rw [if_neg hlong] at hs
  refine ⟨_, step_interpolate vsnprintf hc hzero hs, ?_⟩
  have hdrop : s.c.drop 2 = k.text.drop 2 ++ c := by
    rw [h.c, htext]
    rfl
  simp only [hdrop]
  exact h.append (List.append_nil _).symm _ _

end Scan.At

/-! ## The scan of all pieces -/

/-- `n` rounds lead from `s` to `s'`. -/
def Rounds (vsnprintf : List UInt8 → List VaArg → List UInt8) (n : ℕ) (s s' : Scan) : Prop :=
  ∀ fuel, scanLoop vsnprintf (fuel + n) s = scanLoop vsnprintf fuel s'

theorem Rounds.trans {vsnprintf : List UInt8 → List VaArg → List UInt8} {m n : ℕ}
    {s s' s'' : Scan} (h : Rounds vsnprintf m s s') (h' : Rounds vsnprintf n s' s'') :
    Rounds vsnprintf (n + m) s s'' := by
  intro fuel
  rw [← Nat.add_assoc, h, h']

theorem Rounds.one {vsnprintf : List UInt8 → List VaArg → List UInt8} {s s' : Scan} {b : UInt8}
    {c : List UInt8} (hc : s.c = b :: c) (hb : b ≠ 0)
    (hstep : scanStep vsnprintf s = .ok s') : Rounds vsnprintf 1 s s' :=
  fun fuel ↦ scanLoop_step vsnprintf fuel hc hb hstep

namespace Scan.At

variable (vsnprintf : List UInt8 → List VaArg → List UInt8) {s : Scan} {c : List UInt8}
  {ap : List VaArg} {w : Collected UInt8}

theorem bytes {bs : List UInt8} (hbs : ∀ b ∈ bs, b ≠ 0 ∧ b ≠ 37) (h : s.At (bs ++ c) ap w) :
    ∃ s', Rounds vsnprintf bs.length s s' ∧ s'.At c ap ((bs.map byteMark).foldl .read w) := by
  induction bs generalizing s w with
  | nil => exact ⟨s, fun _ ↦ rfl, h⟩
  | cons b bs ih =>
      obtain ⟨hzero, hpercent⟩ := hbs b (by simp)
      obtain ⟨t, ht, hat⟩ := step_byte vsnprintf h (.inl hpercent)
      obtain ⟨s', hrun, hs'⟩ := ih (fun x hx ↦ hbs x (by simp [hx])) hat
      exact ⟨s', (Rounds.one h.c hzero ht).trans hrun, hs'⟩

/-- Every piece is read as its marks, in no more rounds than it has bytes. -/
theorem piece (p : Piece) (hlocal : p.Plain ∨ Local vsnprintf)
    (h : s.At (p.text ++ c) (p.args ++ ap) w) :
    ∃ n s', n ≤ p.text.length ∧ Rounds vsnprintf n s s' ∧
      s'.At c ap ((p.marks vsnprintf).foldl .read w) := by
  cases p with
  | lit b hb =>
      obtain ⟨hzero, hpercent, hspace⟩ := hb
      obtain ⟨s', hs, hat⟩ := step_byte vsnprintf h (.inl hpercent)
      rw [byteMark, if_neg hspace] at hat
      exact ⟨1, s', le_rfl, Rounds.one h.c hzero hs, hat⟩
  | space =>
      obtain ⟨s', hs, hat⟩ := step_byte vsnprintf h (.inl (by decide))
      exact ⟨1, s', le_rfl, Rounds.one h.c (by decide) hs, hat⟩
  | str mem =>
      obtain ⟨s', hs, hat⟩ := step_str vsnprintf h
      exact ⟨1, s', one_le_two, Rounds.one h.c (by decide) hs, hat⟩
  | bin mem size hsize =>
      obtain ⟨s', hs, hat⟩ := step_bin vsnprintf hsize h
      exact ⟨1, s', one_le_two, Rounds.one h.c (by decide) hs, hat⟩
  | percent =>
      obtain ⟨s', hs, hat⟩ := step_percent vsnprintf h
      exact ⟨1, s', one_le_two, Rounds.one h.c (by decide) hs, hat⟩
  | conv k arg harg =>
      have hlocal : Local vsnprintf := hlocal.resolve_left id
      have h : s.At (k.text ++ c) (arg :: ap) w := h
      have hc : s.c = 37 :: (k.text.drop 1 ++ c) := h.c
      have hpos : 1 ≤ k.text.length := by simp [Conversion.text]
      by_cases hshort : k.text.length < 14
      · obtain ⟨s', hs, hat⟩ := step_short vsnprintf harg hshort h
        rw [hlocal] at hat
        refine ⟨1, s', hpos, Rounds.one hc (by decide) hs, ?_⟩
        rwa [Piece.marks, if_pos hshort]
      · obtain ⟨t, ht, hat⟩ := step_long vsnprintf harg hshort h
        obtain ⟨spec, tail, htext, hbytes⟩ := k.text_eq
        have hcopied : ∀ b ∈ k.text.drop 2, b ≠ 0 ∧ b ≠ 37 := by
          intro b hb
          rw [htext] at hb
          have := hbytes b (by simp at hb; simp [hb])
          exact ⟨this.1, this.2.1⟩
        obtain ⟨s', hrun, hs'⟩ := hat.bytes vsnprintf hcopied
        refine ⟨_, s', ?_, (Rounds.one hc (by decide) ht).trans hrun, ?_⟩
        · rw [List.length_drop, Piece.text]
          omega
        · rwa [Piece.marks, if_neg hshort]

theorem pieces (ps : List Piece) (hlocal : (∀ p ∈ ps, p.Plain) ∨ Local vsnprintf)
    (h : s.At (ps.flatMap Piece.text ++ c) (ps.flatMap Piece.args ++ ap) w) :
    ∃ n s', n ≤ (ps.flatMap Piece.text).length ∧ Rounds vsnprintf n s s' ∧
      s'.At c ap ((ps.flatMap (Piece.marks vsnprintf)).foldl .read w) := by
  induction ps generalizing s w with
  | nil => exact ⟨0, s, le_rfl, fun _ ↦ rfl, h⟩
  | cons p ps ih =>
      rw [List.flatMap_cons, List.append_assoc, List.flatMap_cons, List.append_assoc] at h
      obtain ⟨m, t, hm, hrun, ht⟩ :=
        h.piece vsnprintf p (hlocal.imp_left fun hall ↦ hall p (by simp))
      obtain ⟨n, s', hn, hrun', hs'⟩ :=
        ih (hlocal.imp_left fun hall q hq ↦ hall q (by simp [hq])) ht
      refine ⟨n + m, s', ?_, hrun.trans hrun', ?_⟩
      · rw [List.flatMap_cons, List.length_append]
        omega
      · rwa [List.flatMap_cons, List.foldl_append]

end Scan.At

/-! ## Templates -/

/-- A format in pieces, possibly with a percent sign at its end. -/
structure Template where
  pieces : List Piece
  lone : Bool

namespace Template

def format (t : Template) : List UInt8 :=
  t.pieces.flatMap Piece.text ++ if t.lone then [37] else []

def args (t : Template) : List VaArg := t.pieces.flatMap Piece.args

/-- What a percent sign at the end adds. -/
def tail (t : Template) : List (Option (List UInt8)) := if t.lone then [some [37]] else []

/-- The arguments that the format stands for: it is split at its spaces, and the
values are put in. -/
def tokens (vsnprintf : List UInt8 → List VaArg → List UInt8) (t : Template) :
    List (List UInt8) :=
  Words.words (t.pieces.map (Piece.mark vsnprintf) ++ t.tail)

/-- The scan of a template ends with the words of its marks. -/
theorem commandArguments_marks (vsnprintf : List UInt8 → List VaArg → List UInt8)
    (t : Template) (hlocal : (∀ p ∈ t.pieces, p.Plain) ∨ Local vsnprintf) :
    commandArguments vsnprintf t.format t.args =
      .ok (Words.words (t.pieces.flatMap (Piece.marks vsnprintf) ++ t.tail)) := by
  obtain ⟨ps, lone⟩ := t
  have hstart : Scan.At ⟨format ⟨ps, lone⟩ ++ [0], args ⟨ps, lone⟩, sdsempty, false, [], 0⟩
      (ps.flatMap Piece.text ++ ((if lone then [37] else []) ++ [0]))
      (ps.flatMap Piece.args ++ []) .empty := by
    refine ⟨?_, ?_, rfl, rfl, rfl⟩
    · simp only [format, List.append_assoc]
    · simp only [args, List.append_nil]
  obtain ⟨n, s, hn, hrun, hs⟩ := hstart.pieces vsnprintf ps hlocal
  have hlen : (format ⟨ps, lone⟩).length + 2 =
      (ps.flatMap Piece.text).length - n + (if lone then 1 else 0) + 2 + n := by
    simp only [format, List.length_append]
    split
    · simp only [List.length_singleton]
      omega
    · simp only [List.length_nil]
      omega
  rw [commandArguments, hlen, hrun]
  generalize (ps.flatMap Piece.text).length - n = fuel
  have hend : ∃ s', scanLoop vsnprintf (fuel + (if lone then 1 else 0) + 2) s = .ok s' ∧
      s'.At [0] [] (((ps.flatMap (Piece.marks vsnprintf)) ++ tail ⟨ps, lone⟩).foldl .read
        .empty) := by
    rw [List.foldl_append]
    cases lone with
    | false => exact ⟨s, scanLoop_end vsnprintf _ hs.c, hs⟩
    | true =>
        obtain ⟨s', hstep, hs'⟩ := hs.step_byte vsnprintf (.inr rfl)
        refine ⟨s', ?_, hs'⟩
        rw [scanLoop_step vsnprintf _ hs.c (by decide) hstep]
        exact scanLoop_end vsnprintf _ hs'.c
  obtain ⟨s', hrun', hs'⟩ := hend
  rw [hrun', Except.map, hs'.finish, Collected.foldl_empty]

/-- Short conversions are replaced by what `vsnprintf` makes of them. -/
theorem commandArguments_tokens (vsnprintf : List UInt8 → List VaArg → List UInt8)
    (t : Template) (hlocal : (∀ p ∈ t.pieces, p.Plain) ∨ Local vsnprintf)
    (hshort : ∀ p ∈ t.pieces, p.Short) :
    commandArguments vsnprintf t.format t.args = .ok (t.tokens vsnprintf) := by
  rw [t.commandArguments_marks vsnprintf hlocal, tokens]
  have hmarks : t.pieces.flatMap (Piece.marks vsnprintf) =
      t.pieces.map (Piece.mark vsnprintf) := by
    rw [List.map_eq_flatMap]
    exact List.flatMap_congr fun p hp ↦ (hshort p hp).marks vsnprintf
  rw [hmarks]

end Template

/-! ## Splitting at spaces -/

def Piece.isSpace : Piece → Bool
  | space => true
  | _ => false

theorem Piece.mark_isNone (vsnprintf : List UInt8 → List VaArg → List UInt8) (p : Piece) :
    (p.mark vsnprintf).isNone = p.isSpace := by
  cases p <;> rfl

theorem Template.tokens_length {vsnprintf : List UInt8 → List VaArg → List UInt8}
    {t t' : Template} (hlone : t.lone = t'.lone)
    (hspace : t.pieces.map Piece.isSpace = t'.pieces.map Piece.isSpace) :
    (t.tokens vsnprintf).length = (t'.tokens vsnprintf).length := by
  have hmarks : ∀ ps : List Piece,
      (ps.map (Piece.mark vsnprintf)).map Option.isNone = ps.map Piece.isSpace := by
    intro ps
    rw [List.map_map]
    exact List.map_congr_left fun p _ ↦ p.mark_isNone vsnprintf
  apply Words.length_words
  rw [List.map_append, List.map_append, hmarks, hmarks, hspace, tail, tail, hlone]

/-- A format of literal bytes, spaces, `%s`, `%b` and `%%` is split at its spaces,
and the values are put in.  The values do not change the number of arguments. -/
theorem redisvFormatCommand_tokens (malloc : ℕ → Bool)
    (vsnprintf : List UInt8 → List VaArg → List UInt8) (t : Template)
    (hplain : ∀ p ∈ t.pieces, p.Plain) (len : ℕ)
    (hlen : (MuxHiredis.redisFormatCommandArgv (t.tokens vsnprintf)).length = len)
    (hfit : len < 2 ^ 31) (hmalloc : malloc (commandSize len) = true) :
    redisvFormatCommand malloc vsnprintf t.format t.args =
        .cmd len (MuxHiredis.redisFormatCommandArgv (t.tokens vsnprintf)) ∧
      ∀ t' : Template, t.lone = t'.lone →
        t.pieces.map Piece.isSpace = t'.pieces.map Piece.isSpace →
          (t.tokens vsnprintf).length = (t'.tokens vsnprintf).length := by
  constructor
  · rw [← arguments_length (t.tokens vsnprintf)] at hlen
    rw [redisvFormatCommand_eq,
      t.commandArguments_tokens vsnprintf (.inl hplain) fun p hp ↦ (hplain p hp).short, commandOf,
      redisFormatCommandArgv_fits _ _ hlen hfit hmalloc, arguments_length]
  · intro t' hlone hspace
    exact Template.tokens_length hlone hspace

/-- `"SET  %s %b%%"` with an empty string and the bytes of a space. -/
theorem redisvFormatCommand_tokens_set :
    redisvFormatCommand (fun n ↦ decide (n < 2 ^ 63)) (fun _ _ ↦ [])
        [83, 69, 84, 32, 32, 37, 115, 32, 37, 98, 37, 37] [.ptr [0], .ptr [32, 0], .size 1] =
      .cmd 27 (MuxHiredis.redisFormatCommandArgv [[83, 69, 84], [], [32, 37]]) :=
  (redisvFormatCommand_tokens (fun n ↦ decide (n < 2 ^ 63)) (fun _ _ ↦ [])
    ⟨[.lit 83 (by decide), .lit 69 (by decide), .lit 84 (by decide), .space, .space, .str [0],
      .space, .bin [32, 0] 1 (by decide), .percent], false⟩
    (by simp [Piece.Plain]) 27 (by decide) (by decide) (by decide)).1

/-! ## Conversions that do not fit -/

theorem Piece.length_le_marks (p : Piece) :
    ((p.mark fun _ _ ↦ []).getD []).length ≤
      ((p.marks fun _ _ ↦ []).flatMap (·.getD [])).length := by
  by_cases h : p.Short
  · rw [h.marks]
    simp
  · cases p with
    | conv k arg harg => simp [mark]
    | _ => exact absurd trivial h

theorem Piece.length_lt_marks {p : Piece} (h : ¬p.Short) :
    ((p.mark fun _ _ ↦ []).getD []).length <
      ((p.marks fun _ _ ↦ []).flatMap (·.getD [])).length := by
  cases p with
  | conv k arg harg =>
      have hlong : ¬k.text.length < 14 := h
      have hletters : ∀ b ∈ intfmts ++ doublefmts, b ≠ 32 := by simp [intfmts, doublefmts]
      have hletter : k.letter ≠ 32 := by
        apply hletters
        rw [List.mem_append]
        exact k.letter_mem.imp_right And.right
      have hmem : some [k.letter] ∈ (k.text.drop 2).map byteMark := by
        obtain ⟨body, hbody⟩ : ∃ body, k.text = body ++ [k.letter] :=
          ⟨37 :: (k.fields.text ++ k.modifier.text), by simp [Conversion.text]⟩
        rw [hbody] at hlong ⊢
        rw [List.length_append, List.length_singleton] at hlong
        rw [List.drop_append_of_le_length (by omega), List.mem_map]
        exact ⟨k.letter, by simp, by rw [byteMark, if_neg hletter]⟩
      rw [marks, if_neg hlong, mark, List.flatMap_cons]
      simp only [Option.getD_some, List.nil_append, List.length_nil]
      apply List.length_pos_of_mem
      exact List.mem_flatMap.mpr ⟨_, hmem, List.mem_singleton_self _⟩
  | _ => exact absurd trivial h

theorem length_flatMap_le (ps : List Piece) :
    (ps.flatMap fun p ↦ (p.mark fun _ _ ↦ []).getD []).length ≤
      (ps.flatMap fun p ↦ (p.marks fun _ _ ↦ []).flatMap (·.getD [])).length := by
  rw [List.length_flatMap, List.length_flatMap]
  apply List.sum_le_sum
  exact fun p _ ↦ p.length_le_marks

/-- Every conversion, whatever `vsnprintf` makes of it, is replaced if and only if
every one of them is below 14 bytes; and the command is that of the arguments. -/
theorem commandArguments_replaced_iff (t : Template) :
    ((∀ vsnprintf, Local vsnprintf →
        commandArguments vsnprintf t.format t.args = .error .format ∨
          commandArguments vsnprintf t.format t.args = .ok (t.tokens vsnprintf)) ↔
      ∀ p ∈ t.pieces, p.Short) ∧
      ∀ malloc vsnprintf, redisvFormatCommand malloc vsnprintf t.format t.args =
        commandOf malloc (commandArguments vsnprintf t.format t.args) := by
  refine ⟨⟨?_, ?_⟩, fun malloc vsnprintf ↦ redisvFormatCommand_eq vsnprintf malloc _ _⟩
  · intro h
    by_contra hlong
    obtain ⟨p, hp, hlong⟩ : ∃ p ∈ t.pieces, ¬p.Short := by simpa using hlong
    have hlocal : Local fun _ _ ↦ [] := fun _ _ _ ↦ rfl
    have hargs := h _ hlocal
    rw [t.commandArguments_marks _ (.inr hlocal)] at hargs
    rcases hargs with hargs | hargs
    · cases hargs
    -- The bytes of all arguments together are too many.
    have hbytes := congrArg List.length (congrArg List.flatten (Except.ok.inj hargs))
    rw [Template.tokens, Words.words_flatten, Words.words_flatten, List.flatMap_append,
      List.flatMap_append, List.length_append, List.length_append, List.flatMap_map,
      List.flatMap_assoc] at hbytes
    obtain ⟨before, after, hsplit⟩ := List.append_of_mem hp
    have hbefore := length_flatMap_le before
    have hafter := length_flatMap_le after
    have hlt := Piece.length_lt_marks hlong
    rw [hsplit] at hbytes
    simp only [List.flatMap_append, List.flatMap_cons, List.length_append] at hbytes
    omega
  · intro hshort vsnprintf hlocal
    exact .inr (t.commandArguments_tokens vsnprintf (.inr hlocal) hshort)

/-- `%000000000020d`, of 14 bytes. -/
def zeroPadded : Conversion where
  fields := ⟨List.replicate 10 48, [50, 48], none, by simp [flags], by simp [isdigit], by simp⟩
  modifier := .none
  letter := 100
  letter_mem := by decide

/-- The value is left out, and all but two bytes of the conversion are copied. -/
theorem zeroPadded_copied :
    redisvFormatCommand (fun n ↦ decide (n < 2 ^ 63)) (fun _ _ ↦ List.replicate 19 48 ++ [55])
        (Template.format ⟨[.conv zeroPadded (.int 7) trivial], false⟩) [.int 7] =
        .cmd 23 (MuxHiredis.redisFormatCommandArgv [zeroPadded.text.drop 2]) ∧
      commandArguments (fun _ _ ↦ List.replicate 19 48 ++ [55])
        (Template.format ⟨[.conv zeroPadded (.int 7) trivial], false⟩) [.int 7] =
        .ok [zeroPadded.text.drop 2] ∧
      Template.tokens (fun _ _ ↦ List.replicate 19 48 ++ [55])
        ⟨[.conv zeroPadded (.int 7) trivial], false⟩ = [List.replicate 19 48 ++ [55]] := by
  refine ⟨by decide, ?_, by decide⟩
  exact Template.commandArguments_marks _ ⟨[.conv zeroPadded (.int 7) trivial], false⟩
    (.inr fun _ _ _ ↦ rfl)

/-! ## Lengths around the wrap -/

/-- The command is exactly as long as the room that is made for it, or its
truncated length is refused. -/
theorem format_exact_iff (malloc : ℕ → Bool) (hrefuse : ∀ n, 2 ^ 63 ≤ n → malloc n = false) :
    (∀ argv argvlen len,
      (MuxHiredis.redisFormatCommandArgv (arguments argv argvlen)).length = len →
        ((redisFormatCommandArgv malloc argv argvlen).Exact ↔
          malloc (commandSize len) = false ∨ len + 1 < 2 ^ 31)) ∧
      ∀ vsnprintf (t : Template), (∀ p ∈ t.pieces, p.Plain) → ∀ len,
        (MuxHiredis.redisFormatCommandArgv (t.tokens vsnprintf)).length = len →
          ((redisvFormatCommand malloc vsnprintf t.format t.args).Exact ↔
            malloc (commandSize len) = false ∨ len + 1 < 2 ^ 31) := by
  constructor
  · intro argv argvlen len hlen
    rw [redisFormatCommandArgv_eq, hlen]
    exact writeCommand_exact_iff hrefuse hlen
  · intro vsnprintf t hplain len hlen
    rw [redisvFormatCommand_eq,
      t.commandArguments_tokens vsnprintf (.inl hplain) fun p hp ↦ (hplain p hp).short, commandOf,
      redisFormatCommandArgv_eq, arguments_length, hlen]
    exact writeCommand_exact_iff hrefuse hlen

theorem format_exact_get :
    (redisFormatCommandArgv (fun n ↦ decide (n < 2 ^ 63)) [[71, 69, 84], []] (some [3, 0])).Exact ∧
      (redisvFormatCommand (fun n ↦ decide (n < 2 ^ 63)) (fun _ _ ↦ []) [71, 32, 37, 98]
        [.ptr [1, 2], .size 2]).Exact := by
  have hexact := format_exact_iff (fun n ↦ decide (n < 2 ^ 63))
    fun n hn ↦ decide_eq_false (by omega)
  constructor
  · exact (hexact.1 [[71, 69, 84], []] (some [3, 0]) 19 (by decide)).mpr (.inr (by norm_num))
  · have hformat : [71, 32, 37, 98] = Template.format
        ⟨[.lit 71 (by decide), .space, .bin [1, 2] 2 (by decide)], false⟩ := rfl
    have hargs : [.ptr [1, 2], .size 2] = Template.args
        ⟨[.lit 71 (by decide), .space, .bin [1, 2] 2 (by decide)], false⟩ := rfl
    rw [hformat, hargs]
    have hiff := hexact.2 (fun _ _ ↦ [])
      ⟨[.lit 71 (by decide), .space, .bin [1, 2] 2 (by decide)], false⟩
      (by simp [Piece.Plain]) 19 (by decide)
    exact hiff.mpr (.inr (by norm_num))

theorem put_full {size : ℕ} {bytes s : List UInt8} {extra : ℕ}
    (h : size < bytes.length + s.length + extra) :
    (Writer.at size bytes).put s extra = .error .write := by
  unfold Writer.put Writer.at
  rw [if_neg]
  rintro ⟨-, hroom⟩
  exact absurd hroom (Nat.not_le.mpr h)

theorem writeAll_overflow {arg : List UInt8} (h : arg.length = 4294967296) :
    writeAll 19 [arg] (.at 20 []) = .error .write := by
  have hargc : signedDecimal (wrap32 (([arg].length : ℕ) : ℤ)) = [49] := by
    rw [List.length_singleton]
    decide
  unfold writeAll writeBulk Writer.sprintf Writer.memcpy
  rw [hargc, put_at (by decide) (by decide)]
  simp only [bind, Except.bind, List.foldlM_cons]
  rw [h, put_at (by decide) (by decide)]
  simp only
  rw [put_full (by rw [h]; omega)]

/-- Of one argument of `2 ^ 32` bytes, the total is 19. -/
theorem redisFormatCommandArgv_overflow :
    redisFormatCommandArgv (fun n ↦ decide (n < 2 ^ 63)) [List.replicate 4294967296 0]
        (some [4294967296]) = .fault .write ∧
      redisvFormatCommand (fun n ↦ decide (n < 2 ^ 63)) (fun _ _ ↦ []) [37, 98]
        [.ptr (List.replicate 4294967296 0), .size 4294967296] = .fault .write := by
  have harg : (List.replicate 4294967296 (0 : UInt8)).length = 4294967296 :=
    List.length_replicate
  generalize List.replicate 4294967296 (0 : UInt8) = arg at harg
  have hdigits : (decimal 4294967296).length = 10 := by decide
  have hheader : headerLen 1 = 4 := by decide
  have hlen : (MuxHiredis.redisFormatCommandArgv [arg]).length = 2 ^ 32 + 19 := by
    rw [format_length, List.flatMap_singleton, bulk_length, harg, List.length_singleton,
      hdigits, hheader]
    norm_num
  have hrun : redisFormatCommandArgv (fun n ↦ decide (n < 2 ^ 63)) [arg] (some [4294967296]) =
      .fault .write := by
    have hargs : arguments [arg] (some [4294967296]) = [arg] := by
      rw [← harg]
      exact arguments_length [arg]
    have hwrap : wrap32 ((2 ^ 32 + 19 : ℕ) : ℤ) = 19 := by decide
    have hsize : (wrap32 (19 + 1) % 2 ^ 64).toNat = 20 := by decide
    rw [redisFormatCommandArgv_eq, hargs, hlen, hwrap]
    have hstart : (⟨20, [], 0⟩ : Writer) = .at 20 [] := rfl
    simp only [writeCommand, hsize, hstart, writeAll_overflow harg]
    rfl
  refine ⟨hrun, ?_⟩
  have htokens : commandArguments (fun _ _ ↦ []) [37, 98] [.ptr arg, .size 4294967296] =
      .ok [arg] := by
    have := Template.commandArguments_tokens (fun _ _ ↦ [])
      ⟨[.bin arg 4294967296 harg.ge], false⟩ (.inl (by simp [Piece.Plain]))
      (by simp [Piece.Short])
    rw [Template.tokens] at this
    simpa [Template.format, Template.args, Piece.text, Piece.args, Template.tail, Piece.mark,
      Words.words_some_nil, ← harg] using this
  rw [redisvFormatCommand_eq, htokens, commandOf, List.map_singleton, harg, hrun]

end Format

end MuxHiredis
