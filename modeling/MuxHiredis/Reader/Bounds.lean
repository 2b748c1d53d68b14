import MuxHiredis.Reader.Calls
import MuxHiredis.Reader.Numbers

/-!
# Reads stay inside the buffer

The functions of `read.c` with machine integers and with pointers that may be
read from the cursor to the end of the buffer only.  A read outside has no
result.
-/

namespace MuxHiredis

/-! ## Pointers -/

/-- What may be read through a pointer, by the offset from it. -/
abbrev Pointer := ℕ → Option UInt8

/-- The bytes of an object that is made from `len` bytes at `start`. -/
def Pointer.copy (p : Pointer) (start len : ℕ) : Option (List UInt8) :=
  (List.range len).mapM fun k ↦ p (start + k)

/-- A `size_t` after wrapping around. -/
def toSize (x : ℤ) : ℕ := (x % 2 ^ 64).toNat

/-- `while(pos < _len && s[pos] != '\r') pos++;` -/
def skipToCr (s : Pointer) (len : ℤ) : ℕ → ℤ → Option ℤ
  | 0, _ => none
  | fuel + 1, pos =>
      if pos < len then
        (s pos.toNat).bind fun c ↦
          if c ≠ cr then skipToCr s len fuel (wrap32 (pos + 1)) else some pos
      else some pos

/-- The outer loop of `seekNewline`.  The result says whether it returns a place or
`NULL`. -/
def seekFrom (s : Pointer) (len : ℤ) : ℕ → ℤ → Option (Option ℤ)
  | 0, _ => none
  | fuel + 1, pos =>
      if pos < len then
        (skipToCr s len (fuel + 1) pos).bind fun pos ↦
          if pos = len then some none
          else
            (s (wrap32 (pos + 1)).toNat).bind fun c ↦
              if c = lf then some (some pos) else seekFrom s len fuel (wrap32 (pos + 1))
      else some none

/-- `seekNewline` on `len` bytes at `s`. -/
def seekNewlineAt (s : Pointer) (len : ℕ) : Option (Option ℤ) :=
  let _len := wrap32 (toSize ((len : ℤ) - 1))
  seekFrom s _len (_len.toNat + 1) 0

/-- The digit loop of `readLongLong`, from offset `k` on. -/
def readDigitsAt (s : Pointer) : ℕ → ℕ → ℤ → Option (Option ℤ)
  | 0, _, _ => none
  | fuel + 1, k, v =>
      (s k).bind fun c ↦
        if c = cr then some (some v)
        else if 48 ≤ c ∧ c < 58 then
          readDigitsAt s fuel (k + 1) (wrap64 (wrap64 (v * 10) + ((c.toNat : ℤ) - 48)))
        else some none

/-- `readLongLong`; the loop is given `fuel` turns. -/
def readLongLongAt (s : Pointer) (fuel : ℕ) : Option ℤ :=
  (s 0).bind fun c ↦
    let signed : ℤ × ℕ := if c = 45 then (-1, 1) else if c = 43 then (1, 1) else (1, 0)
    (readDigitsAt s fuel signed.2 0).map fun
      | some v => wrap64 (signed.1 * v)
      | none => -1

/-! ## Reads inside a window -/

/-- A pointer to the bytes `w`. -/
def window (w : List UInt8) : Pointer := fun k ↦ w[k]?

theorem copy_window {w : List UInt8} {start len : ℕ} (h : start + len ≤ w.length) :
    (window w).copy start len = some ((w.drop start).take len) := by
  have hmapM : ∀ (l : List ℕ) (g : ℕ → UInt8), (∀ k ∈ l, window w (start + k) = some (g k)) →
      l.mapM (fun k ↦ window w (start + k)) = some (l.map g) := by
    intro l g hall
    induction l with
    | nil => rfl
    | cons k l ih =>
        rw [List.mapM_cons, hall k (by simp), ih fun i hi ↦ hall i (by simp [hi])]
        rfl
  rw [Pointer.copy, hmapM (List.range len) fun k ↦ w.getD (start + k) 0]
  · congr 1
    apply List.ext_getElem
    · simp only [List.length_map, List.length_range, List.length_take, List.length_drop]
      omega
    · intro i hi _
      have hlt : start + i < w.length := by
        simp only [List.length_map, List.length_range] at hi
        omega
      simp [List.getElem?_eq_getElem hlt]
  · intro k hk
    have hlt : start + k < w.length := by
      have hk := List.mem_range.mp hk
      omega
    simp [window, List.getElem?_eq_getElem hlt]

/-- Where the first `\r\n` from offset `k` on is. -/
def newlineFrom (w : List UInt8) (k : ℕ) : Option ℤ :=
  (seekNewline (w.drop k)).map fun n : ℕ ↦ ((k + n : ℕ) : ℤ)

theorem newlineFrom_end {w : List UInt8} {k : ℕ} (h : w.length ≤ k + 1) :
    newlineFrom w k = none := by
  have hlen : (w.drop k).length ≤ 1 := by
    rw [List.length_drop]
    omega
  match hd : w.drop k with
  | [] => simp [newlineFrom, hd, seekNewline]
  | [a] => simp [newlineFrom, hd, seekNewline]
  | a :: b :: rest => simp [hd] at hlen

theorem newlineFrom_cons {w : List UInt8} {k : ℕ} {a b : UInt8} (ha : w[k]? = some a)
    (hb : w[k + 1]? = some b) :
    newlineFrom w k = if a = cr ∧ b = lf then some (k : ℤ) else newlineFrom w (k + 1) := by
  obtain ⟨hk, rfl⟩ := List.getElem?_eq_some_iff.mp ha
  obtain ⟨hk', rfl⟩ := List.getElem?_eq_some_iff.mp hb
  have hdrop : w.drop k = w[k] :: w[k + 1] :: w.drop (k + 2) := by
    rw [List.drop_eq_getElem_cons hk, List.drop_eq_getElem_cons hk']
  have hdrop' : w.drop (k + 1) = w[k + 1] :: w.drop (k + 2) := List.drop_eq_getElem_cons hk'
  unfold newlineFrom
  rw [hdrop, seekNewline, hdrop']
  split
  · simp
  · rw [Option.map_map]
    congr 1
    funext n
    simp only [Function.comp_apply]
    congr 1
    omega

/-- The inner loop stops at a `\r` or at the end, and passes over no line end. -/
theorem skipToCr_window {w : List UInt8} {len k fuel : ℕ} (hlen : len + 1 = w.length)
    (hsmall : w.length < 2 ^ 31) (hk : k ≤ len) (hfuel : len < k + fuel) :
    ∃ j : ℕ, skipToCr (window w) len fuel k = some (j : ℤ) ∧ k ≤ j ∧ j ≤ len ∧
      newlineFrom w k = newlineFrom w j ∧ (j < len → w[j]? = some cr) := by
  induction fuel generalizing k with
  | zero => omega
  | succ fuel ih =>
      rw [skipToCr]
      by_cases hlt : (k : ℤ) < len
      · have hk' : k < w.length := by omega
        have hnext : wrap32 ((k : ℤ) + 1) = ((k + 1 : ℕ) : ℤ) := by
          rw [wrap32_of_lt (by omega) (by omega)]
          rfl
        rw [if_pos hlt, Int.toNat_natCast, window, List.getElem?_eq_getElem hk', Option.bind_some]
        by_cases hc : w[k] = cr
        · rw [if_neg (not_not.mpr hc)]
          exact ⟨k, rfl, Nat.le_refl k, hk, rfl,
            fun _ ↦ (List.getElem?_eq_getElem hk').trans (congrArg some hc)⟩
        · obtain ⟨j, hskip, hkj, hjlen, hsame, hcr⟩ := ih (k := k + 1) (by omega) (by omega)
          rw [if_pos hc, hnext]
          refine ⟨j, hskip, by omega, hjlen, ?_, hcr⟩
          rw [← hsame, newlineFrom_cons (List.getElem?_eq_getElem hk')
            (List.getElem?_eq_getElem (show k + 1 < w.length by omega)), if_neg fun h ↦ hc h.1]
      · rw [if_neg hlt]
        exact ⟨k, rfl, Nat.le_refl k, hk, rfl, fun h ↦ by omega⟩

theorem seekFrom_window {w : List UInt8} {len k fuel : ℕ} (hlen : len + 1 = w.length)
    (hsmall : w.length < 2 ^ 31) (hk : k ≤ len) (hfuel : len < k + fuel) :
    seekFrom (window w) len fuel k = some (newlineFrom w k) := by
  induction fuel generalizing k with
  | zero => omega
  | succ fuel ih =>
      rw [seekFrom]
      by_cases hlt : (k : ℤ) < len
      · obtain ⟨j, hskip, hkj, hjlen, hsame, hcr⟩ := skipToCr_window hlen hsmall hk hfuel
        rw [if_pos hlt, hskip, Option.bind_some, hsame]
        by_cases hend : (j : ℤ) = len
        · rw [if_pos hend, newlineFrom_end (by omega)]
        · have hj : j + 1 < w.length := by omega
          have hnext : wrap32 ((j : ℤ) + 1) = ((j + 1 : ℕ) : ℤ) := by
            rw [wrap32_of_lt (by omega) (by omega)]
            rfl
          rw [if_neg hend, hnext, Int.toNat_natCast, window, List.getElem?_eq_getElem hj,
            Option.bind_some, newlineFrom_cons (hcr (by omega)) (List.getElem?_eq_getElem hj)]
          by_cases hlf : w[j + 1] = lf
          · rw [if_pos hlf, if_pos ⟨rfl, hlf⟩]
          · rw [if_neg hlf, if_neg fun h ↦ hlf h.2]
            exact ih (by omega) (by omega)
      · rw [if_neg hlt, newlineFrom_end (by omega)]

/-- `seekNewline` reads inside the window, and finds the first line end. -/
theorem seekNewlineAt_window {w : List UInt8} (hsmall : w.length < 2 ^ 31) :
    seekNewlineAt (window w) w.length = some ((seekNewline w).map fun n : ℕ ↦ (n : ℤ)) := by
  unfold seekNewlineAt
  cases hw : w.length with
  | zero =>
      have hnil : w = [] := List.length_eq_zero_iff.mp hw
      subst hnil
      rfl
  | succ len =>
      have hlast : wrap32 (toSize (((len + 1 : ℕ) : ℤ) - 1)) = (len : ℤ) := by
        have hsize : (toSize (((len + 1 : ℕ) : ℤ) - 1) : ℤ) = len := by
          simp only [toSize]
          omega
        rw [hsize, wrap32_of_lt (by omega) (by omega)]
      have hseek := seekFrom_window (k := 0) hw.symm hsmall (Nat.zero_le len)
        (show len < 0 + (len + 1) by omega)
      simp only [hlast, Int.toNat_natCast]
      rw [show (0 : ℤ) = ((0 : ℕ) : ℤ) from rfl, hseek]
      simp [newlineFrom]

/-- The digit loop stops inside of a window with a `\r`. -/
theorem readDigitsAt_window {w : List UInt8} {k fuel : ℕ} (hcr : cr ∈ w.drop k)
    (hfuel : w.length ≤ k + fuel) (v : ℤ) :
    readDigitsAt (window w) fuel k v = some (readDigits v (w.drop k)) := by
  induction fuel generalizing k v with
  | zero =>
      rw [List.drop_eq_nil_of_le (by omega)] at hcr
      cases hcr
  | succ fuel ih =>
      have hk : k < w.length := by
        by_contra hge
        rw [List.drop_eq_nil_of_le (by omega)] at hcr
        cases hcr
      rw [readDigitsAt, window, List.getElem?_eq_getElem hk, Option.bind_some,
        List.drop_eq_getElem_cons hk, readDigits]
      by_cases hc : w[k] = cr
      · rw [if_pos hc, if_pos hc]
      · rw [if_neg hc, if_neg hc]
        split
        · rw [List.drop_eq_getElem_cons hk] at hcr
          have htail := (List.mem_cons.mp hcr).resolve_left fun h ↦ hc h.symm
          exact ih htail (by omega) _
        · rfl

/-- `readLongLong` relies on the `\r` that was found before. -/
theorem readLongLongAt_window {w : List UInt8} (hcr : cr ∈ w) {fuel : ℕ}
    (hfuel : w.length ≤ fuel) :
    readLongLongAt (window w) fuel = some (readLongLong w) := by
  cases w with
  | nil => cases hcr
  | cons c rest =>
      have hbehind : c ≠ cr → cr ∈ (c :: rest).drop 1 :=
        fun hc ↦ (List.mem_cons.mp hcr).resolve_left fun h ↦ hc h.symm
      have hsigned : ∀ v : ℤ, c = 45 ∨ c = 43 →
          readDigitsAt (window (c :: rest)) fuel 1 v = some (readDigits v rest) := by
        intro v hc
        refine readDigitsAt_window (hbehind ?_) (by omega) v
        rintro rfl
        exact absurd hc (by decide)
      unfold readLongLongAt readLongLong
      rw [show window (c :: rest) 0 = some c from rfl, Option.bind_some]
      by_cases hminus : c = 45
      · simp only [if_pos hminus, hsigned 0 (Or.inl hminus)]
        cases readDigits 0 rest <;> rfl
      · by_cases hplus : c = 43
        · simp only [if_neg hminus, if_pos hplus, hsigned 0 (Or.inr hplus)]
          cases readDigits 0 rest <;> rfl
        · have hplain := readDigitsAt_window (k := 0) (v := 0) hcr
            (show (c :: rest).length ≤ 0 + fuel by omega)
          rw [List.drop_zero] at hplain
          simp only [if_neg hminus, if_neg hplus, hplain]
          cases readDigits 0 (c :: rest) <;> rfl

/-! ## The reader with checked reads -/

namespace RedisReader

variable {σ : Type}

/-- A byte of the buffer that lies from the cursor to the end. -/
def examine (r : RedisReader σ) (i : ℕ) : Option UInt8 :=
  if r.pos ≤ i ∧ i < r.len then r.buf.bind fun b ↦ b.bytes[i]? else none

/-- `r->buf+r->pos`. -/
def atCursor (r : RedisReader σ) : Pointer := fun k ↦ r.examine (r.pos + k)

/-- `r->len-r->pos`. -/
def unreadSize (r : RedisReader σ) : ℕ := toSize ((r.len : ℤ) - r.pos)

def readBytesAt (r : RedisReader σ) (bytes : ℕ) : Option Pointer × RedisReader σ :=
  if bytes ≤ r.unreadSize then (some r.atCursor, { r with pos := toSize ((r.pos : ℤ) + bytes) })
  else (none, r)

def readLineAt (r : RedisReader σ) : Option (Option (Pointer × ℤ) × RedisReader σ) :=
  (seekNewlineAt r.atCursor r.unreadSize).map fun
    | none => (none, r)
    | some s =>
        let len := wrap32 s
        (some (r.atCursor, len), { r with pos := toSize (r.pos + wrap32 (len + 2)) })

/-- `processLineItem`.  The integer and the string are read also when there is no
function that takes them. -/
def processLineItemAt (r : RedisReader σ) : Option (Status × RedisReader σ) :=
  r.readLineAt.bind fun
    | (none, r) => some (.err, r)
    | (some (p, len), r) =>
        let finish (made : Option Obj × ReadState σ) :=
          r.withObject made fun obj s ↦ (s.setRoot obj).moveToNextTask
        if r.cur.type = some .integer then
          (readLongLongAt p r.len).map fun v ↦ finish (r.makeInteger r.fn v)
        else
          (p.copy 0 len.toNat).map fun str ↦
            finish (r.makeString r.fn (r.cur.type.getD .nil) str)

def processBulkItemAt (r : RedisReader σ) : Option (Status × RedisReader σ) :=
  let finish (pos : ℕ) (made : Option Obj × ReadState σ) :=
    { r with pos := pos }.withObject made fun obj s ↦ (s.setRoot obj).moveToNextTask
  (seekNewlineAt r.atCursor r.unreadSize).bind fun
    | none => some (.err, r)
    | some s =>
        let bytelen := toSize (s + 2)
        (readLongLongAt r.atCursor r.len).bind fun len ↦
          if len < 0 then some (finish (toSize ((r.pos : ℤ) + bytelen)) (r.makeNil r.fn))
          else
            let bytelen := toSize (bytelen + wrap64 (len + 2))
            if toSize ((r.pos : ℤ) + bytelen) ≤ r.len then
              (r.atCursor.copy (s + 2).toNat len.toNat).map fun str ↦
                finish (toSize ((r.pos : ℤ) + bytelen)) (r.makeString r.fn .string str)
            else some (.err, r)

def processMultiBulkItemAt (r : RedisReader σ) : Option (Status × RedisReader σ) :=
  if r.ridx = 8 then some (.err, r.setError .protocol depthError)
  else
    r.readLineAt.bind fun
      | (none, r) => some (.err, r)
      | (some (p, _), r) =>
          (readLongLongAt p r.len).map fun elements ↦
            let root := r.ridx = 0
            let setRoot (obj : Obj) (s : ReadState σ) : ReadState σ :=
              if root then { s with reply := some obj } else s
            if elements = -1 then
              r.withObject (r.makeNil r.fn) fun obj s ↦ setRoot obj s.moveToNextTask
            else
              r.withObject (r.makeArray r.fn elements) fun obj s ↦
                setRoot obj (if 0 < elements then s.pushTask elements obj else s.moveToNextTask)

def processTypedAt (r : RedisReader σ) : Option (Status × RedisReader σ) :=
  match r.cur.type with
  | some .error | some .status | some .integer => r.processLineItemAt
  | some .string => r.processBulkItemAt
  | some .array => r.processMultiBulkItemAt
  | _ => some (.err, r)

def processItemAt (r : RedisReader σ) : Option (Status × RedisReader σ) :=
  if r.cur.type = none then
    match r.readBytesAt 1 with
    | (some p, r) =>
        (p 0).bind fun byte ↦
          match typeOfByte byte with
          | some type =>
              { r with toReadState := r.setCur { r.cur with type := some type } }.processTypedAt
          | none => some (.err, r.setErrorProtocolByte byte)
    | (none, r) => some (.err, r)
  else r.processTypedAt

def processItemsAt : ℕ → RedisReader σ → Option (RedisReader σ)
  | 0, r => some r
  | fuel + 1, r =>
      if 0 ≤ r.ridx then
        r.processItemAt.bind fun
          | (.ok, r') => processItemsAt fuel r'
          | (.err, r') => some r'
      else some r

def getReplyAt (r : RedisReader σ) : Option (Status × Option Obj × RedisReader σ) :=
  if r.err.isSome then some (.err, none, r)
  else if r.len = 0 then some (.ok, none, r)
  else
    (r.started.processItemsAt (r.started.unread.length + 1)).map fun r ↦
      if r.err.isSome then (.err, none, r)
      else
        let r := r.discard
        if r.ridx = -1 then (.ok, r.reply, { r with reply := none })
        else (.ok, none, r)

/-! ## Checked reads are the reads -/

/-- A live reader whose buffer stays below `2 ^ 31` bytes. -/
structure Bounded (r : RedisReader σ) : Prop where
  live : r.Live
  small : r.len < 2 ^ 31

variable {r : RedisReader σ}

theorem Bounded.unread_small (h : r.Bounded) : r.unread.length < 2 ^ 31 := by
  have hlen := h.live.unread_length
  have hsmall := h.small
  omega

theorem Bounded.atCursor_eq (h : r.Bounded) : r.atCursor = window r.unread := by
  obtain ⟨b, hb, hlen⟩ := h.live.buf
  funext k
  rw [window, h.live.unread_eq hb, List.getElem?_drop]
  simp only [atCursor, examine, hb, Option.bind_some, Nat.le_add_right, true_and]
  split
  · rfl
  · rename_i hout
    rw [List.getElem?_eq_none]
    rw [hlen] at hout
    exact Nat.le_of_not_lt hout

theorem Bounded.unreadSize_eq (h : r.Bounded) : r.unreadSize = r.unread.length := by
  have hlen := h.live.unread_length
  have hpos := h.live.pos
  have hsmall := h.small
  simp only [unreadSize, toSize]
  omega

theorem Bounded.seekNewlineAt_eq (h : r.Bounded) :
    seekNewlineAt r.atCursor r.unreadSize =
      some ((seekNewline r.unread).map fun n : ℕ ↦ (n : ℤ)) := by
  rw [h.atCursor_eq, h.unreadSize_eq, seekNewlineAt_window h.unread_small]

theorem Bounded.readLongLongAt_eq (h : r.Bounded) {n : ℕ} (hn : seekNewline r.unread = some n) :
    readLongLongAt r.atCursor r.len = some (readLongLong r.unread) := by
  have hlen := h.live.unread_length
  rw [h.atCursor_eq]
  exact readLongLongAt_window (List.mem_of_mem_take (cr_mem_take hn)) (by omega)

theorem Bounded.readLineAt_eq (h : r.Bounded) :
    r.readLineAt = some (
      match r.readLine with
      | (none, r') => (none, r')
      | (some (_, n), r') => (some (r.atCursor, (n : ℤ)), r')) := by
  unfold readLineAt readLine
  rw [h.seekNewlineAt_eq]
  cases hn : seekNewline r.unread with
  | none => rfl
  | some n =>
      have hlt := seekNewline_lt hn
      have hlen := h.live.unread_length
      have hsmall := h.small
      have hpos := h.live.pos
      have hn32 : wrap32 (n : ℤ) = n := wrap32_of_lt (by omega) (by omega)
      have hn2 : wrap32 ((n : ℤ) + 2) = n + 2 := wrap32_of_lt (by omega) (by omega)
      have hcursor : toSize ((r.pos : ℤ) + ((n : ℤ) + 2)) = r.pos + n + 2 := by
        simp only [toSize]
        omega
      simp only [Option.map_some, hn32, hn2, hcursor]

theorem Bounded.processLineItemAt_eq (h : r.Bounded) :
    r.processLineItemAt = some r.processLineItem := by
  unfold processLineItemAt processLineItem
  rw [h.readLineAt_eq, Option.bind_some]
  unfold readLine
  cases hn : seekNewline r.unread with
  | none => rfl
  | some n =>
      have hlt := seekNewline_lt hn
      have hnumber : readLongLongAt r.atCursor r.len = some (readLongLong r.unread) :=
        h.readLongLongAt_eq hn
      have hcopy : r.atCursor.copy 0 n = some (r.unread.take n) := by
        rw [h.atCursor_eq, copy_window (by omega), List.drop_zero]
      simp only [hnumber, Int.toNat_natCast, hcopy, Option.map_some]
      split <;> rfl

/-- The end of a bulk, with an announced length that is no address. -/
theorem bulkEnd_eq {pos n : ℕ} {len : ℤ} (hpos : pos < 2 ^ 31) (hn : n < 2 ^ 31)
    (hlen : 0 ≤ len) (hlen' : len < 2 ^ 63) :
    toSize ((pos : ℤ) + toSize (toSize ((n : ℤ) + 2) + wrap64 (len + 2))) =
      pos + (n + 2 + len.toNat + 2) := by
  simp only [toSize, wrap64, Int.bmod_def]
  omega

theorem Bounded.processBulkItemAt_eq (h : r.Bounded) :
    r.processBulkItemAt = some r.processBulkItem := by
  unfold processBulkItemAt processBulkItem
  rw [h.seekNewlineAt_eq]
  cases hn : seekNewline r.unread with
  | none => simp [hn]
  | some n =>
      have hlt := seekNewline_lt hn
      have hlen := h.live.unread_length
      have hsmall := h.small
      have hpos := h.live.pos
      obtain ⟨-, hmax⟩ := fits64_readLongLong r.unread
      simp only [hn, Option.map_some, Option.bind_some, h.readLongLongAt_eq hn]
      by_cases hneg : readLongLong r.unread < 0
      · have hnil : toSize ((r.pos : ℤ) + toSize ((n : ℤ) + 2)) = r.pos + (n + 2) := by
          simp only [toSize]
          omega
        rw [if_pos hneg, if_pos hneg, hnil]
      · have hcursor : r.pos < 2 ^ 31 := by omega
        have hline : n < 2 ^ 31 := by omega
        have hend := bulkEnd_eq hcursor hline (Int.not_lt.mp hneg) hmax
        rw [if_neg hneg, if_neg hneg, hend]
        by_cases hfit : r.pos + (n + 2 + (readLongLong r.unread).toNat + 2) ≤ r.len
        · have hstart : ((n : ℤ) + 2).toNat = n + 2 := by omega
          rw [if_pos hfit, if_pos hfit, hstart, h.atCursor_eq, copy_window (by omega)]
          rfl
        · rw [if_neg hfit, if_neg hfit]

theorem Bounded.processMultiBulkItemAt_eq (h : r.Bounded) :
    r.processMultiBulkItemAt = some r.processMultiBulkItem := by
  unfold processMultiBulkItemAt processMultiBulkItem
  split
  · rfl
  · rw [h.readLineAt_eq, Option.bind_some]
    unfold readLine
    cases hn : seekNewline r.unread with
    | none => rfl
    | some n =>
        have hnumber : readLongLongAt r.atCursor r.len = some (readLongLong r.unread) :=
          h.readLongLongAt_eq hn
        simp only [hnumber, Option.map_some]

theorem Bounded.processTypedAt_eq (h : r.Bounded) : r.processTypedAt = some r.processTyped := by
  unfold processTypedAt processTyped
  cases r.cur.type with
  | none => rfl
  | some type =>
      cases type with
      | error | status | integer => exact h.processLineItemAt_eq
      | string => exact h.processBulkItemAt_eq
      | array => exact h.processMultiBulkItemAt_eq
      | nil => rfl

theorem Bounded.processItemAt_eq (h : r.Bounded) : r.processItemAt = some r.processItem := by
  have hlen := h.live.unread_length
  have hsmall := h.small
  have hpos := h.live.pos
  unfold processItemAt processItem
  by_cases ht : r.cur.type = none
  · rw [if_pos ht, if_pos ht]
    unfold readBytesAt readBytes
    rw [h.unreadSize_eq, hlen]
    by_cases hroom : 1 ≤ r.len - r.pos
    · have hcursor : toSize ((r.pos : ℤ) + (1 : ℕ)) = r.pos + 1 := by
        simp only [toSize]
        omega
      obtain ⟨byte, rest, hunread⟩ : ∃ byte rest, r.unread = byte :: rest := by
        cases hu : r.unread with
        | nil => simp [hu] at hlen; omega
        | cons byte rest => exact ⟨byte, rest, rfl⟩
      have hbyte : r.atCursor 0 = some byte := by
        rw [h.atCursor_eq, hunread]
        rfl
      simp only [if_pos hroom, hcursor, hbyte, Option.bind_some, hunread]
      cases typeOfByte byte with
      | none => rfl
      | some type =>
          have hlive := h.live.advance (s := r.toReadState.setType type) h.live.err
            (show r.pos + 1 ≤ r.len by omega)
          have hnext : Bounded { r with
              toReadState := r.toReadState.setType type, pos := r.pos + 1 } := ⟨hlive, hsmall⟩
          exact hnext.processTypedAt_eq
    · simp only [if_neg hroom]
  · rw [if_neg ht, if_neg ht]
    exact h.processTypedAt_eq

/-! ## Whole calls -/

/-- What holds at each pass of the loop. -/
structure Running (r : RedisReader σ) : Prop where
  bounded : r.Bounded
  wf : r.toReadState.Wf

theorem Running.processItem (h : r.Running) {r' : RedisReader σ}
    (hitem : r.processItem = (.ok, r')) : r'.Running := by
  rw [processItem_eq h.bounded.live] at hitem
  cases hs : r.itemStep r.fn r.unread with
  | fail s' => simp [hs, settle] at hitem
  | wait s' rest => simp [hs, settle] at hitem
  | emit u s' rest =>
      have hwf := (ReadState.itemStep_lawful r.fn).emit_inv h.wf hs
      obtain ⟨hlive, -⟩ :=
        live_after h.bounded.live hwf.no_err (ReadState.itemStep_suffix (Or.inl hs))
      rw [hs] at hitem
      obtain ⟨-, rfl⟩ := Prod.mk.inj hitem
      exact ⟨⟨hlive, h.bounded.small⟩, hwf⟩

theorem Running.processItemsAt_eq (h : r.Running) (fuel : ℕ) :
    r.processItemsAt fuel = some (r.processItems fuel) := by
  induction fuel generalizing r with
  | zero => rfl
  | succ fuel ih =>
      rw [processItemsAt, processItems]
      split
      · rw [h.bounded.processItemAt_eq, Option.bind_some]
        cases hitem : r.processItem with
        | mk status r' =>
            cases status with
            | ok => exact ih (h.processItem hitem)
            | err => rfl
      · rfl

theorem Running.of_mem_passes (h : r.Running) {fuel : ℕ} {t : RedisReader σ}
    (ht : t ∈ r.passes fuel) : t.Running := by
  induction fuel generalizing r with
  | zero => exact List.mem_singleton.mp ht ▸ h
  | succ fuel ih =>
      rcases List.mem_cons.mp ht with rfl | ht
      · exact h
      · split at ht
        · cases hitem : r.processItem with
          | mk status r' =>
              rw [hitem] at ht
              cases status with
              | ok => exact ih (h.processItem hitem) ht
              | err => cases ht
        · cases ht

/-- A reader between two calls. -/
structure Waiting (r : RedisReader σ) : Prop where
  bounded : r.Bounded
  wf : r.start.Wf

theorem Waiting.running (h : r.Waiting) : r.started.Running :=
  ⟨⟨⟨h.wf.no_err, h.bounded.live.buf, h.bounded.live.pos⟩, h.bounded.small⟩, h.wf⟩

theorem Waiting.getReplyAt_eq (h : r.Waiting) : r.getReplyAt = some r.getReply := by
  unfold getReplyAt getReply
  split
  · rfl
  · split
    · rfl
    · rw [h.running.processItemsAt_eq, Option.map_some]

/-! ## Whole runs -/

theorem settle_len_le (r : RedisReader σ) (o : Resumable.Outcome (ReadState σ) UInt8 Unit) :
    (r.settle o).2.len ≤ r.len := by
  cases o with
  | emit u s rest => exact Nat.le_refl r.len
  | wait s rest => exact Nat.le_refl r.len
  | fail s => exact Nat.zero_le r.len

theorem Running.processItems_len_le (h : r.Running) (fuel : ℕ) :
    (r.processItems fuel).len ≤ r.len := by
  induction fuel generalizing r with
  | zero => exact Nat.le_refl r.len
  | succ fuel ih =>
      rw [processItems]
      split
      · have hle : r.processItem.2.len ≤ r.len := by
          rw [processItem_eq h.bounded.live]
          exact settle_len_le r _
        cases hitem : r.processItem with
        | mk status r' =>
            rw [hitem] at hle
            cases status with
            | ok => exact (ih (h.processItem hitem)).trans hle
            | err => exact hle
      · exact Nat.le_refl r.len

theorem discard_len_le (h : r.Live) : r.discard.len ≤ r.len := by
  obtain ⟨b, hb, hlen⟩ := h.buf
  unfold discard
  split
  · have hdrop : (sdsrange b r.pos (-1)).bytes = b.bytes.drop r.pos :=
      sdsrange_drop b (hlen ▸ h.pos)
    simp only [hb, Option.getD_some, sdslen, hdrop, List.length_drop]
    rw [hlen]
    exact Nat.sub_le _ _
  · exact Nat.le_refl r.len

theorem Waiting.feed (h : r.Waiting) {chunk : List UInt8} (hsmall : (r.feed chunk).2.len < 2 ^ 31) :
    (r.feed chunk).2.Waiting := by
  obtain ⟨hlive, hsame, -⟩ := feed_live h.bounded.live chunk
  exact ⟨⟨hlive, hsmall⟩, by rw [hsame]; exact h.wf⟩

/-- A call does not make the buffer longer. -/
theorem Waiting.getReply_len_le (h : r.Waiting) : r.getReply.2.2.len ≤ r.len := by
  have hridx := start_ridx_nonneg h.wf
  obtain ⟨hstop, -⟩ := processItems_stopped h.running.bounded.live h.running.wf hridx
    (Nat.lt_succ_self r.started.unread.length)
  have hle := h.running.processItems_len_le (r.started.unread.length + 1)
  unfold RedisReader.getReply
  split
  · exact Nat.le_refl r.len
  · split
    · exact Nat.le_refl r.len
    · simp only
      generalize r.started.processItems (r.started.unread.length + 1) = q at hstop hle ⊢
      split
      · exact hle
      · rename_i herr
        have hlive : q.Live := by
          cases hs : r.started.replyStep r.started.fn r.started.unread with
          | emit b s' rest =>
              rw [hs] at hstop
              exact hstop.1
          | wait s' rest =>
              rw [hs] at hstop
              exact hstop.1
          | fail s' =>
              rw [hs] at hstop
              exact absurd (Option.isSome_iff_ne_none.mpr hstop.2) herr
        have hdiscard := (discard_len_le hlive).trans hle
        split <;> exact hdiscard

/-- After a call the reader has failed, or waits again. -/
theorem Waiting.getReply (h : r.Waiting) (herr : r.getReply.2.2.err = none) :
    r.getReply.2.2.Waiting := by
  have hlaw := ReadState.replyStep_lawful r.fn
  have hsmall := lt_of_le_of_lt h.getReply_len_le h.bounded.small
  have hget := getReply_eq h.bounded.live h.wf (start_ridx_nonneg h.wf)
  cases hs : r.start.replyStep r.fn r.unread with
  | emit b s' rest =>
      rw [hs] at hget
      obtain ⟨r', hr', -, ⟨hlive, hstart, -⟩, -⟩ := hget
      rw [hr'] at hsmall ⊢
      exact ⟨⟨hlive, hsmall⟩, hstart ▸ hlaw.emit_inv h.wf hs⟩
  | wait s' rest =>
      rw [hs] at hget
      obtain ⟨r', hr', ⟨hlive, hstart, -⟩, -⟩ := hget
      rw [hr'] at hsmall ⊢
      exact ⟨⟨hlive, hsmall⟩, hstart ▸ hlaw.wait_inv h.wf hs⟩
  | fail s' =>
      rw [hs] at hget
      obtain ⟨r', hr', -, hfailed⟩ := hget
      rw [hr'] at herr
      exact absurd herr hfailed

/-- A reader whose cursor lies inside the buffer, that loses no byte it has not
consumed, and whose next item reads from the cursor to the end only. -/
structure Contained (r : RedisReader σ) : Prop where
  pos_le : r.pos ≤ r.len
  buffer : ∃ b, r.buf = some b ∧ r.len = sdslen b
  feed : ∀ chunk, (r.feed chunk).2.unread = r.unread ++ chunk
  discard : r.discard.unread = r.unread
  item : r.processItemAt = some r.processItem

theorem Bounded.contained (h : r.Bounded) : r.Contained :=
  ⟨h.live.pos, h.live.buf, fun chunk ↦ (feed_live h.live chunk).2.2, (discard_live h.live).2,
    h.processItemAt_eq⟩

/-- A reader that is fed and asked for replies, with checked reads: a read outside
of the buffer ends the run. -/
def reading (fn : RedisReplyObjectFunctions σ) (store : σ) :
    Machine (RedisReader σ) Parsing.Action where
  start r := r = create fn store
  step r
    | .feed chunk => some (r.feed chunk).2
    | .getReply => r.getReplyAt.map fun result ↦ result.2.2

/-- The buffer stays below `2 ^ 31` bytes. -/
def Small (r : RedisReader σ) : Parsing.Action → Prop
  | .feed chunk => (r.feed chunk).2.len < 2 ^ 31
  | .getReply => True

instance (r : RedisReader σ) (a : Parsing.Action) : Decidable (r.Small a) :=
  match a with
  | .feed chunk => inferInstanceAs (Decidable ((r.feed chunk).2.len < 2 ^ 31))
  | .getReply => .isTrue trivial

/-- A reader that failed, or waits. -/
def Settled (r : RedisReader σ) : Prop := r.err = none → r.Waiting

theorem Settled.step {fn : RedisReplyObjectFunctions σ} {store : σ} (h : r.Settled)
    {a : Parsing.Action} (hsmall : r.Small a) {r' : RedisReader σ}
    (hstep : (reading fn store).step r a = some r') : r'.Settled := by
  by_cases herr : r.err = none
  · have hwaiting := h herr
    cases a with
    | feed chunk =>
        obtain rfl := Option.some.inj hstep
        exact fun _ ↦ hwaiting.feed hsmall
    | getReply =>
        obtain ⟨result, hget, rfl⟩ := Option.map_eq_some_iff.mp hstep
        rw [hwaiting.getReplyAt_eq] at hget
        obtain rfl := Option.some.inj hget
        exact hwaiting.getReply
  · -- Nothing happens any more.
    have hfailed : r.err.isSome = true := Option.isSome_iff_ne_none.mpr herr
    have hsame : r' = r := by
      cases a with
      | feed chunk =>
          obtain rfl := Option.some.inj hstep
          simp [RedisReader.feed, hfailed]
      | getReply =>
          obtain ⟨result, hget, rfl⟩ := Option.map_eq_some_iff.mp hstep
          simp only [getReplyAt, hfailed, if_true, Option.some.injEq] at hget
          exact hget ▸ rfl
    exact hsame ▸ h

/-- In all runs a reader without error is contained, between the calls and at each
pass of the loop, and no call reads outside of the buffer. -/
theorem reach_contained {fn : RedisReplyObjectFunctions σ} {store : σ}
    (hr : (reading fn store).Reach Small r) (herr : r.err = none) :
    r.Contained ∧ r.getReplyAt = some r.getReply ∧ ∀ t ∈ r.nextPasses, t.Contained := by
  have hsettled : r.Settled := by
    refine Machine.Reach.invariant ?_ ?_ hr
    · rintro r rfl _
      exact ⟨⟨create_live fn store, show 0 < 2 ^ 31 by decide⟩, create_start_wf fn store⟩
    · exact fun r a r' h hsmall hstep ↦ h.step hsmall hstep
  have hwaiting := hsettled herr
  refine ⟨hwaiting.bounded.contained, hwaiting.getReplyAt_eq, fun t ht ↦ ?_⟩
  unfold nextPasses at ht
  split at ht
  · cases ht
  · exact (hwaiting.running.of_mem_passes ht).bounded.contained

/-- A bulk of `2 ^ 63 - 1` bytes is announced, and four bytes of it come. -/
theorem reach_contained_bulk :
    ∃ r : RedisReader Unit, (r.pos = 1 ∧ r.len = 26 ∧ r.ridx = 0) ∧
      r.Contained ∧ r.getReplyAt = some r.getReply ∧ ∀ t ∈ r.nextPasses, t.Contained := by
  let reader : RedisReader Unit := create .null ()
  obtain ⟨r, hrun, hr⟩ := (reading .null ()).run_spec reader
    [.feed [36, 57, 50, 50, 51, 51, 55, 50, 48, 51, 54, 56, 53, 52, 55, 55, 53, 56, 48, 55, 13, 10],
      .getReply, .feed [97, 98, 99, 100], .getReply]
    (fun r ↦ decide ((r.pos = 1 ∧ r.len = 26 ∧ r.ridx = 0) ∧ r.err = none)) (by decide +kernel)
  obtain ⟨hplace, herr⟩ := of_decide_eq_true hr
  have hreach : (reading .null () : Machine (RedisReader Unit) Parsing.Action).Reach Small r :=
    .run (.start (show reader = create .null () from rfl)) (by decide +kernel) hrun
  exact ⟨r, hplace, reach_contained hreach herr⟩

end RedisReader

end MuxHiredis
