import MuxHiredis.Sds
import MuxHiredis.Lib.Separated
import MuxHiredis.Reader.Encoding

/-!
# Splitting and joining

`sdssplitlen` and `sdsjoinsds`.  There is enough memory; the array of tokens has
`slots` places, and storing behind it has no result.
-/

namespace MuxHiredis

namespace Split

def sdscatsds (s t : Sds) : Sds := sdscatlen s t.bytes

/-- `for (j = 0; j < argc; j++)`, with what is left of the array. -/
def joinLoop (sep : List UInt8) : Sds → List Sds → Sds
  | join, [] => join
  | join, a :: argv =>
      let join := sdscatsds join a
      joinLoop sep (if argv.isEmpty then join else sdscatlen join sep) argv

def sdsjoinsds (argv : List Sds) (sep : List UInt8) : Sds := joinLoop sep sdsempty argv

inductive Fault where
  | null
  | overflow
  | fuel
  deriving DecidableEq, Repr

/-- `tokens[elements] = ...` -/
def store (slots : ℤ) (tokens : List (List UInt8)) (token : List UInt8) :
    Except Fault (List (List UInt8)) :=
  if slots ≤ tokens.length then .error .overflow else .ok (tokens ++ [token])

/-- Room for the next element and the final one. -/
def grow (slots : ℤ) (tokens : List (List UInt8)) : ℤ :=
  if slots < tokens.length + 2 then wrap32 (slots * 2) else slots

def splitLoop (s sep : List UInt8) :
    ℕ → ℤ → ℕ → ℕ → List (List UInt8) → Except Fault (List (List UInt8))
  | 0, _, _, _, _ => .error .fuel
  | fuel + 1, slots, start, j, tokens =>
      if j + sep.length ≤ s.length then
        let slots := grow slots tokens
        -- The size of a negative number of slots is no size.
        if slots < 0 then .error .null
        else if (s.drop j).take sep.length = sep then
          (store slots tokens ((s.drop start).take (j - start))).bind
            (splitLoop s sep fuel slots (j + sep.length) (j + sep.length))
        else splitLoop s sep fuel slots start (j + 1) tokens
      else store slots tokens (s.drop start)

def sdssplitlen (s sep : List UInt8) : Except Fault (List (List UInt8)) :=
  if sep.length < 1 then .error .null
  else if s.length = 0 then .ok []
  else splitLoop s sep (s.length + 1) 5 0 0 []

/-! ## Joining -/

theorem joinLoop_bytes (sep : List UInt8) (argv : List Sds) (join : Sds) :
    (joinLoop sep join argv).bytes = join.bytes ++ sep.intercalate (argv.map Sds.bytes) := by
  induction argv generalizing join with
  | nil => exact (List.append_nil _).symm
  | cons a argv ih =>
      rw [joinLoop, ih]
      cases argv with
      | nil => simp [sdscatsds]
      | cons b argv => simp [sdscatsds, List.intercalate_cons_cons]

theorem sdsjoinsds_bytes (argv : List Sds) (sep : List UInt8) :
    (sdsjoinsds argv sep).bytes = sep.intercalate (argv.map Sds.bytes) := by
  rw [sdsjoinsds, joinLoop_bytes, sdsempty_bytes, List.nil_append]

/-! ## Splitting -/

open Separated

variable {s sep : List UInt8} {tokens : List (List UInt8)} {slots : ℤ}

/-- There is room for two more tokens. -/
theorem grow_room (h : (tokens.length : ℤ) < slots) (hfew : tokens.length + 2 ≤ 2 ^ 30) :
    (tokens.length : ℤ) + 2 ≤ grow slots tokens := by
  unfold grow
  split_ifs with hfull
  · rw [wrap32_of_lt] <;> omega
  · omega

theorem store_ok (h : (tokens.length : ℤ) < slots) (token : List UInt8) :
    store slots tokens token = .ok (tokens ++ [token]) :=
  if_neg (not_le.mpr h)

/-- The place behind the free ones is free too. -/
theorem freeBelow_succ {start j : ℕ} (hstart : start ≤ j)
    (hfree : FreeBelow sep (s.drop start) (j - start))
    (hmatch : (s.drop j).take sep.length ≠ sep) :
    FreeBelow sep (s.drop start) (j + 1 - start) := by
  intro k hk hbegin
  rcases Nat.lt_or_eq_of_le (Nat.le_of_lt_succ (by omega : k < j - start + 1)) with hlt | rfl
  · exact hfree k hlt hbegin
  · rw [List.drop_drop, Nat.add_sub_cancel' hstart] at hbegin
    exact hmatch (List.prefix_iff_eq_take.mp hbegin).symm

/-- Too little is left for a separator. -/
theorem freeBelow_end {start j : ℕ} (hstart : start ≤ j)
    (hfree : FreeBelow sep (s.drop start) (j - start)) (hend : s.length < j + sep.length) :
    FreeBelow sep (s.drop start) (s.drop start).length := by
  intro k hk hbegin
  by_cases hlt : k < j - start
  · exact hfree k hlt hbegin
  · have hle := hbegin.length_le
    rw [List.length_drop] at hk
    rw [List.drop_drop, List.length_drop] at hle
    omega

/-- The bytes behind `start` are a token, a separator and what is behind it. -/
theorem drop_split {start j : ℕ} (hstart : start ≤ j)
    (hmatch : (s.drop j).take sep.length = sep) :
    s.drop start = (s.drop start).take (j - start) ++ sep ++ s.drop (j + sep.length) := by
  have htail : s.drop j = sep ++ s.drop (j + sep.length) := by
    conv_lhs => rw [← List.take_append_drop sep.length (s.drop j), hmatch, List.drop_drop]
  have hdrop : (s.drop start).drop (j - start) = s.drop j := by
    rw [List.drop_drop, Nat.add_sub_cancel' hstart]
  rw [List.append_assoc, ← htail, ← hdrop, List.take_append_drop]

/-- The loop, by induction on the places that are left. -/
theorem splitLoop_spec (hsep : sep ≠ []) (hs : s.length < 2 ^ 30) (fuel : ℕ) (slots : ℤ)
    (start j : ℕ) (tokens : List (List UInt8)) (hstart : start ≤ j) (hj : j ≤ s.length)
    (hfree : FreeBelow sep (s.drop start) (j - start)) (hfuel : s.length < fuel + j)
    (hcount : tokens.length ≤ j) (hslots : (tokens.length : ℤ) < slots) :
    ∃ ts, splitLoop s sep fuel slots start j tokens = .ok (tokens ++ ts) ∧ Apart sep ts ∧
      sep.intercalate ts = s.drop start := by
  have hpos := List.length_pos_iff.mpr hsep
  induction fuel generalizing start j tokens slots with
  | zero => omega
  | succ fuel ih =>
      rw [splitLoop]
      by_cases hmore : j + sep.length ≤ s.length
      · have hroom := grow_room hslots (by omega)
        rw [if_pos hmore]
        dsimp only
        rw [if_neg (by omega)]
        by_cases hmatch : (s.drop j).take sep.length = sep
        · rw [if_pos hmatch, store_ok (by omega)]
          have hlength : ((s.drop start).take (j - start)).length = j - start := by
            rw [List.length_take, List.length_drop]
            omega
          -- Behind the separator the next token begins, with no place free yet.
          obtain ⟨ts, hrun, hapart, hjoin⟩ := ih (grow slots tokens) (j + sep.length)
            (j + sep.length) (tokens ++ [(s.drop start).take (j - start)]) le_rfl hmore
            (by rw [Nat.sub_self]; exact fun k hk ↦ absurd hk (Nat.not_lt_zero k))
            (by omega) (by rw [List.length_append, List.length_singleton]; omega)
            (by rw [List.length_append, List.length_singleton]; push_cast; omega)
          have hsplit := drop_split hstart hmatch
          refine ⟨(s.drop start).take (j - start) :: ts, ?_, ?_, ?_⟩
          · rw [Except.bind, hrun, List.append_assoc]
            rfl
          · rw [apart_cons hapart.ne_nil, ← freeBelow_word (s.drop (j + sep.length)), ← hsplit,
              hlength]
            exact ⟨hfree, hapart⟩
          · rw [List.intercalate_cons_of_ne_nil hapart.ne_nil, hjoin]
            exact hsplit.symm
        · rw [if_neg hmatch]
          apply ih (grow slots tokens) start (j + 1) tokens (by omega) (by omega)
            (freeBelow_succ hstart hfree hmatch) (by omega) (by omega) (by omega)
      · rw [if_neg hmore, store_ok hslots]
        exact ⟨[s.drop start], rfl, freeBelow_end hstart hfree (not_le.mp hmore),
          List.intercalate_singleton⟩

theorem sdssplitlen_spec (hsep : sep ≠ []) (hs : s.length < 2 ^ 30) (hne : s ≠ []) :
    ∃ ts, sdssplitlen s sep = .ok ts ∧ Apart sep ts ∧ sep.intercalate ts = s := by
  have hpos := List.length_pos_iff.mpr hsep
  have hlength := List.length_pos_iff.mpr hne
  rw [sdssplitlen, if_neg (by omega), if_neg (by omega)]
  apply splitLoop_spec hsep hs (s.length + 1) 5 0 0 [] le_rfl (Nat.zero_le _)
    (fun k hk ↦ absurd hk (Nat.not_lt_zero k)) (by omega) (Nat.zero_le _)
  decide

/-- The tokens of a string are exactly the words apart that the separator joins to it. -/
theorem sdssplitlen_sdsjoinsds (s sep : List UInt8) (hsep : sep ≠ []) (hs : s.length < 2 ^ 30)
    (hne : s ≠ []) :
    (∃ ts, sdssplitlen s sep = .ok ts) ∧ ∀ argv : List Sds,
      sdssplitlen s sep = .ok (argv.map Sds.bytes) ↔
        (sdsjoinsds argv sep).bytes = s ∧ Apart sep (argv.map Sds.bytes) := by
  obtain ⟨ts, hrun, hapart, hjoin⟩ := sdssplitlen_spec hsep hs hne
  refine ⟨⟨ts, hrun⟩, fun argv ↦ ?_⟩
  rw [hrun, sdsjoinsds_bytes]
  constructor
  · intro heq
    obtain rfl := Except.ok.inj heq
    exact ⟨hjoin, hapart⟩
  · rintro ⟨hbytes, hwords⟩
    rw [hapart.unique hsep hwords (hjoin.trans hbytes.symm)]

/-- The string "foo_-_bar". -/
theorem sdssplitlen_sdsjoinsds_words :
    sdssplitlen [102, 111, 111, 95, 45, 95, 98, 97, 114] [95, 45, 95] =
        .ok [[102, 111, 111], [98, 97, 114]] ∧
      (sdsjoinsds [⟨[102, 111, 111], 0⟩, ⟨[98, 97, 114], 0⟩] [95, 45, 95]).bytes =
        [102, 111, 111, 95, 45, 95, 98, 97, 114] ∧
      Apart [(95 : UInt8), 45, 95] [[102, 111, 111], [98, 97, 114]] := by
  have hsplit : sdssplitlen [102, 111, 111, 95, 45, 95, 98, 97, 114] [95, 45, 95] =
      .ok [[102, 111, 111], [98, 97, 114]] := by decide +kernel
  exact ⟨hsplit, ((sdssplitlen_sdsjoinsds _ _ (by decide) (by decide) (by decide)).2
    [⟨[102, 111, 111], 0⟩, ⟨[98, 97, 114], 0⟩]).mp hsplit⟩

end Split

end MuxHiredis
