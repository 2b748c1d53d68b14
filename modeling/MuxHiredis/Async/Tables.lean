import MuxHiredis.Async.Callbacks
import MuxHiredis.Async.Command
import MuxHiredis.Dict

/-!
# The tables of callbacks

The hash tables behind the channels and the patterns of a context, which the
other modules take for finite maps.
-/

namespace MuxHiredis

open Chains Dict

/-! ## `callbackDict` -/

/-- `dictGenHashFunction`. -/
def dictGenHashFunction (buf : List UInt8) (len : ℤ) : UInt32 :=
  (buf.take len.toNat).foldl (fun hash c ↦ (hash <<< 5 + hash) + c.toUInt32) 5381

/-- `callbackHash`, which passes the length as an `int`. -/
def callbackHash (key : List UInt8) : UInt32 := dictGenHashFunction key (wrap32 key.length)

/-- `callbackKeyCompare`, with lengths that are `int`s. -/
def callbackKeyCompare (key1 key2 : List UInt8) : Bool :=
  let l1 := wrap32 key1.length
  let l2 := wrap32 key2.length
  if l1 ≠ l2 then false else decide (key1.take l1.toNat = key2.take l1.toNat)

def callbackDict : DictType (List UInt8) := ⟨callbackHash, callbackKeyCompare⟩

/-- The length of a name is an `int` where the name comes from. -/
def ShortName (name : List UInt8) : Prop := name.length < 2 ^ 31

theorem lawful_callbackDict : Lawful callbackDict ShortName := by
  intro key key' hkey hkey'
  have h1 : wrap32 key.length = key.length := wrap32_of_lt (by omega) (by exact_mod_cast hkey)
  have h2 : wrap32 key'.length = key'.length := wrap32_of_lt (by omega) (by exact_mod_cast hkey')
  simp only [callbackDict, callbackKeyCompare, h1, h2, Int.toNat_natCast, List.take_length]
  by_cases hlen : key.length = key'.length
  · rw [if_neg (by simp [hlen]), hlen, List.take_length]
    simp [eq_comm]
  · rw [if_pos (by simpa using hlen), eq_comm, decide_eq_false_iff_not]
    rintro rfl
    exact hlen rfl

/-! ## Registrations and removals -/

/-- What happens to the tables: a name of a (P)SUBSCRIBE is registered, or removed
by a message about it. -/
inductive TableOp where
  | subscribe (pattern : Bool) (name : List UInt8) (cb : RedisCallback)
  | unsubscribe (pattern : Bool) (name : List UInt8)

def TableOp.pattern : TableOp → Bool
  | .subscribe pattern _ _ => pattern
  | .unsubscribe pattern _ => pattern

def TableOp.name : TableOp → List UInt8
  | .subscribe _ name _ => name
  | .unsubscribe _ name => name

/-- What the code does to the table. -/
def TableOp.runOn (ht : Dict (List UInt8) RedisCallback) :
    TableOp → Option (Dict (List UInt8) RedisCallback)
  | .subscribe _ name cb => (ht.dictReplace callbackDict name cb).map Prod.snd
  | .unsubscribe _ name =>
      match ht.dictFind callbackDict name with
      | none => some ht
      | some _ => some (ht.dictDelete callbackDict name).2

/-- What it means for the registrations in the table. -/
def TableOp.change (m : CallbackDict) : TableOp → CallbackDict
  | .subscribe _ name cb => m.insert name cb
  | .unsubscribe _ name => m.erase name

/-- The tables of the channels, `false`, and the patterns, `true`. -/
abbrev Tables := Bool → Dict (List UInt8) RedisCallback

def TableOp.run (t : Tables) (op : TableOp) : Option Tables :=
  (op.runOn (t op.pattern)).map (Function.update t op.pattern)

def TableOp.register (pattern : Bool) (m : CallbackDict) (op : TableOp) : CallbackDict :=
  if op.pattern = pattern then op.change m else m

def runTables (ops : List TableOp) : Option Tables :=
  ops.foldlM TableOp.run fun _ ↦ dictCreate

/-- The callbacks that were registered in a table and not removed since. -/
def registrations (pattern : Bool) (ops : List TableOp) : CallbackDict :=
  ops.foldl (TableOp.register pattern) ∅

theorem unsubscribed_callbacks (ac : AsyncContext) (p pattern : Bool) (name : List UInt8)
    (remaining : ℤ) :
    (ac.unsubscribed p name remaining).callbacks pattern =
      (TableOp.unsubscribe p name).register pattern (ac.callbacks pattern) := by
  unfold AsyncContext.unsubscribed
  by_cases hlast : remaining = 0 <;> cases p <;> cases pattern <;>
    simp [hlast, AsyncContext.callbacks, TableOp.register, TableOp.pattern, TableOp.change]

/-- The number of slots after an operation on the table. -/
def TableOp.sizeAfter (ht : Dict (List UInt8) RedisCallback) : TableOp → ℕ
  | .subscribe _ _ _ => ht.grownSize
  | .unsubscribe _ _ => ht.size

theorem TableOp.runOn_refines {ht : Dict (List UInt8) RedisCallback} {m : CallbackDict}
    (h : Refines callbackDict ShortName ht m) (op : TableOp) (hname : ShortName op.name)
    (hfew : m.entries.length < 2 ^ 31) :
    ∃ ht', op.runOn ht = some ht' ∧ Refines callbackDict ShortName ht' (op.change m) ∧
      ht'.size = op.sizeAfter ht := by
  cases op with
  | subscribe p name cb =>
      replace hname : ShortName name := hname
      obtain ⟨ht', hreplace, href, hsize⟩ :=
        dictReplace_refines h lawful_callbackDict hname cb hfew
      exact ⟨ht', by rw [runOn, hreplace]; rfl, href, hsize⟩
  | unsubscribe p name =>
      replace hname : ShortName name := hname
      obtain ⟨href, hsize⟩ := dictDelete_refines h lawful_callbackDict hname
      have hfind := dictFind_eq h lawful_callbackDict hname
      cases hlookup : m.lookup name with
      | none =>
          have habsent : m.erase name = m :=
            AList.ext (List.kerase_of_notMem_keys (AList.lookup_eq_none.mp hlookup))
          refine ⟨ht, by rw [runOn, hfind, hlookup], ?_, rfl⟩
          rw [change, habsent]
          exact h
      | some cb => exact ⟨_, by rw [runOn, hfind, hlookup], href, hsize⟩

/-- The tables after an operation on one of them. -/
theorem TableOp.run_refines {t : Tables} {m : Bool → CallbackDict}
    (h : ∀ pattern, Refines callbackDict ShortName (t pattern) (m pattern)) (op : TableOp)
    (hname : ShortName op.name) (hfew : ∀ pattern, (m pattern).entries.length < 2 ^ 31) :
    ∃ t', op.run t = some t' ∧ ∀ pattern,
      Refines callbackDict ShortName (t' pattern) (op.register pattern (m pattern)) ∧
        (t' pattern).size =
          if op.pattern = pattern then op.sizeAfter (t pattern) else (t pattern).size := by
  obtain ⟨ht', hrun, href, hsize⟩ := op.runOn_refines (h op.pattern) hname (hfew op.pattern)
  refine ⟨Function.update t op.pattern ht', by rw [run, hrun]; rfl, fun pattern ↦ ?_⟩
  by_cases hp : op.pattern = pattern
  · subst hp
    rw [Function.update_self, register, if_pos rfl, if_pos rfl]
    exact ⟨href, hsize⟩
  · rw [Function.update_of_ne (Ne.symm hp), register, if_neg hp, if_neg hp]
    exact ⟨h pattern, rfl⟩

/-! ## All operations -/

/-- A registration is made in a table that holds `2 ^ 30` names or more. -/
def Overfills (pattern : Bool) (ops : List TableOp) : Prop :=
  ∃ i name cb, ops[i]? = some (.subscribe pattern name cb) ∧
    2 ^ 30 ≤ (registrations pattern (ops.take i)).entries.length

/-- Every lookup finds what was registered last and not removed since, and an
iteration goes through every registration once. -/
structure Answers (ops : List TableOp) (t : Tables) : Prop where
  lookup : ∀ pattern name, ShortName name →
    (t pattern).dictFind callbackDict name = (registrations pattern ops).lookup name
  runs : ∀ pattern, (t pattern).dictEntries.Perm (pairs (registrations pattern ops))

theorem registrations_concat (pattern : Bool) (ops : List TableOp) (op : TableOp) :
    registrations pattern (ops ++ [op]) = op.register pattern (registrations pattern ops) := by
  rw [registrations, List.foldl_append]
  rfl

theorem overfills_concat (pattern : Bool) (ops : List TableOp) (op : TableOp) :
    Overfills pattern (ops ++ [op]) ↔ Overfills pattern ops ∨
      (∃ name cb, op = .subscribe pattern name cb) ∧
        2 ^ 30 ≤ (registrations pattern ops).entries.length := by
  constructor
  · rintro ⟨i, name, cb, hi, hfull⟩
    rcases Nat.lt_or_ge i ops.length with hlt | hge
    · rw [List.getElem?_append_left hlt] at hi
      rw [List.take_append_of_le_length hlt.le] at hfull
      exact Or.inl ⟨i, name, cb, hi, hfull⟩
    · obtain rfl : i = ops.length := by
        have hbound := (List.getElem?_eq_some_iff.mp hi).1
        rw [List.length_append, List.length_singleton] at hbound
        omega
      rw [List.getElem?_concat_length] at hi
      rw [List.take_left] at hfull
      exact Or.inr ⟨⟨name, cb, Option.some.inj hi⟩, hfull⟩
  · rintro (⟨i, name, cb, hi, hfull⟩ | ⟨⟨name, cb, rfl⟩, hfull⟩)
    · have hlt := (List.getElem?_eq_some_iff.mp hi).1
      refine ⟨i, name, cb, ?_, ?_⟩
      · rw [List.getElem?_append_left hlt, hi]
      · rwa [List.take_append_of_le_length hlt.le]
    · refine ⟨ops.length, name, cb, List.getElem?_concat_length, ?_⟩
      rwa [List.take_left]

/-- The number of slots grows beyond `2 ^ 30` with the first registration in a
table that is that full. -/
theorem TableOp.sizeAfter_le_iff {ht : Dict (List UInt8) RedisCallback} {m : CallbackDict}
    (h : Refines callbackDict ShortName ht m) {op : TableOp} :
    op.sizeAfter ht ≤ 2 ^ 30 ↔ ht.size ≤ 2 ^ 30 ∧
      ¬((∃ name cb, op = .subscribe op.pattern name cb) ∧ 2 ^ 30 ≤ m.entries.length) := by
  have hused := h.used
  have hfits := h.fits
  cases op with
  | unsubscribe p name => simp [sizeAfter]
  | subscribe p name cb =>
      have hex : ∃ name' cb', TableOp.subscribe p name cb =
          .subscribe (TableOp.subscribe p name cb).pattern name' cb' := ⟨name, cb, rfl⟩
      rw [sizeAfter, grownSize, and_iff_right hex, ← hused]
      rcases h.size with hzero | ⟨k, hk⟩
      · rw [if_pos hzero]
        omega
      · have hpos : 0 < 2 ^ (k + 2) := Nat.two_pow_pos _
        rw [if_neg (by omega)]
        by_cases hfull : ht.used = ht.size
        · rw [if_pos hfull]
          by_cases hle : k + 2 ≤ 29
          · have hpow : 2 ^ (k + 2) ≤ 2 ^ 29 := Nat.pow_le_pow_right (by decide) hle
            omega
          · have hpow : 2 ^ 30 ≤ 2 ^ (k + 2) := Nat.pow_le_pow_right (by decide) (by omega)
            omega
        · rw [if_neg hfull]
          omega

/-- The tables refine the registrations, and have grown as said. -/
theorem runTables_refines {ops : List TableOp} (hnames : ∀ op ∈ ops, ShortName op.name)
    (hfew : ∀ pattern i, (registrations pattern (ops.take i)).entries.length < 2 ^ 31) :
    ∃ t, runTables ops = some t ∧ ∀ pattern,
      Refines callbackDict ShortName (t pattern) (registrations pattern ops) ∧
        ((t pattern).size ≤ 2 ^ 30 ↔ ¬Overfills pattern ops) := by
  induction ops using List.reverseRecOn with
  | nil =>
      refine ⟨fun _ ↦ dictCreate, rfl, fun pattern ↦ ⟨refines_dictCreate, ?_⟩⟩
      simp [Overfills, dictCreate, Dict.size]
  | append_singleton ops op ih =>
      have hfew' : ∀ pattern i,
          (registrations pattern (ops.take i)).entries.length < 2 ^ 31 := by
        intro pattern i
        have h := hfew pattern (min i ops.length)
        rw [List.take_append_of_le_length (Nat.min_le_right _ _)] at h
        rcases Nat.le_total i ops.length with hle | hle
        · rwa [Nat.min_eq_left hle] at h
        · rw [Nat.min_eq_right hle, List.take_length] at h
          rwa [List.take_of_length_le hle]
      obtain ⟨t, hrun, ht⟩ := ih (fun o ho ↦ hnames o (by simp [ho])) hfew'
      obtain ⟨t', hop, ht'⟩ := op.run_refines (fun pattern ↦ (ht pattern).1)
        (hnames op (by simp)) (fun pattern ↦ by simpa using hfew' pattern ops.length)
      refine ⟨t', ?_, fun pattern ↦ ?_⟩
      · rw [runTables] at hrun ⊢
        rw [List.foldlM_append, hrun]
        simp [hop]
      · obtain ⟨href, hsize⟩ := ht' pattern
        rw [registrations_concat, overfills_concat, not_or, ← (ht pattern).2]
        refine ⟨href, ?_⟩
        by_cases hp : op.pattern = pattern
        · subst hp
          rw [hsize, if_pos rfl]
          exact TableOp.sizeAfter_le_iff (ht op.pattern).1
        · have hother : ¬∃ name cb, op = .subscribe pattern name cb := by
            rintro ⟨name, cb, rfl⟩
            exact hp rfl
          rw [hsize, if_neg hp]
          simp [hother]

/-- A table that refines its registrations gives them all exactly when its number
of slots fits an `int`, or nothing is registered. -/
theorem dictEntries_perm_iff {ht : Dict (List UInt8) RedisCallback} {m : CallbackDict}
    (h : Refines callbackDict ShortName ht m) :
    ht.dictEntries.Perm (pairs m) ↔ m.entries = [] ∨ ht.size ≤ 2 ^ 30 := by
  have hbounded := h.bounded
  by_cases hsmall : ht.size ≤ 2 ^ 30
  · rw [dictEntries_eq (by omega)]
    exact iff_of_true h.represents.entries (Or.inr hsmall)
  · obtain ⟨k, hk⟩ := h.size.resolve_left (by omega)
    have hfull : ht.size = 2 ^ 31 := by
      have hlt : 30 < k + 2 := by
        refine (Nat.pow_lt_pow_iff_right (a := 2) (by decide)).mp ?_
        omega
      have hpow : 2 ^ 31 ≤ 2 ^ (k + 2) := Nat.pow_le_pow_right (by decide) hlt
      omega
    rw [dictEntries_overflow hfull, or_iff_left hsmall, List.nil_perm, pairs, List.map_eq_nil_iff]

/-- The tables answer as they should exactly when no registration is made in a
table that holds `2 ^ 30` names, unless all of these are removed. -/
theorem tables_answer_iff {ops : List TableOp} (hnames : ∀ op ∈ ops, ShortName op.name)
    (hfew : ∀ pattern i, (registrations pattern (ops.take i)).entries.length < 2 ^ 31) :
    (∃ t, runTables ops = some t ∧ Answers ops t) ↔
      ∀ pattern, (registrations pattern ops).entries = [] ∨ ¬Overfills pattern ops := by
  obtain ⟨t, hrun, ht⟩ := runTables_refines hnames hfew
  have hruns : ∀ pattern, (t pattern).dictEntries.Perm (pairs (registrations pattern ops)) ↔
      (registrations pattern ops).entries = [] ∨ ¬Overfills pattern ops := by
    intro pattern
    rw [dictEntries_perm_iff (ht pattern).1, (ht pattern).2]
  constructor
  · rintro ⟨t', hrun', hanswers⟩ pattern
    obtain rfl : t = t' := Option.some.inj (hrun.symm.trans hrun')
    exact (hruns pattern).mp (hanswers.runs pattern)
  · intro h
    exact ⟨t, hrun, fun pattern name hname ↦ dictFind_eq (ht pattern).1 lawful_callbackDict hname,
      fun pattern ↦ (hruns pattern).mpr (h pattern)⟩

theorem length_registrations_le (pattern : Bool) (ops : List TableOp) :
    (registrations pattern ops).entries.length ≤ ops.length := by
  induction ops using List.reverseRecOn with
  | nil => exact le_rfl
  | append_singleton ops op ih =>
      have hchange : (op.register pattern (registrations pattern ops)).entries.length ≤
          (registrations pattern ops).entries.length + 1 := by
        unfold TableOp.register
        split
        · cases op with
          | subscribe p name cb =>
              rw [TableOp.change, AList.entries_insert, List.length_cons]
              have hle := (List.kerase_sublist name (registrations pattern ops).entries).length_le
              omega
          | unsubscribe p name =>
              exact (List.kerase_sublist name _).length_le.trans (Nat.le_succ _)
        · exact Nat.le_succ _
      rw [registrations_concat, List.length_append, List.length_singleton]
      omega

theorem tables_answer_iff_resubscribe :
    ∃ t, runTables [.subscribe false [97] ⟨some 1, 2⟩, .subscribe false [98] ⟨some 1, 3⟩,
        .subscribe false [97] ⟨some 1, 4⟩, .unsubscribe false [98]] = some t ∧
      Answers [.subscribe false [97] ⟨some 1, 2⟩, .subscribe false [98] ⟨some 1, 3⟩,
        .subscribe false [97] ⟨some 1, 4⟩, .unsubscribe false [98]] t := by
  refine (tables_answer_iff ?_ fun pattern i ↦ ?_).mpr fun pattern ↦ Or.inr ?_
  · simp [TableOp.name, ShortName]
  · have hle := length_registrations_le pattern (List.take i [.subscribe false [97] ⟨some 1, 2⟩,
      .subscribe false [98] ⟨some 1, 3⟩, .subscribe false [97] ⟨some 1, 4⟩,
      .unsubscribe false [98]])
    simp only [List.length_take, List.length_cons, List.length_nil] at hle
    omega
  · rintro ⟨i, name, cb, -, hfull⟩
    have hle := length_registrations_le pattern (List.take i [.subscribe false [97] ⟨some 1, 2⟩,
      .subscribe false [98] ⟨some 1, 3⟩, .subscribe false [97] ⟨some 1, 4⟩,
      .unsubscribe false [98]])
    simp only [List.length_take, List.length_cons, List.length_nil] at hle
    omega

/-! ## Too many channels -/

/-- A registration for each of the channels `0`, `1` and so on. -/
def subscribeMany (n : ℕ) : List TableOp :=
  (List.range n).map fun i ↦ .subscribe false (decimal i) ⟨some 1, i⟩

theorem length_decimal_le (n : ℕ) : (decimal n).length ≤ n + 1 := by
  induction n using Nat.strong_induction_on with
  | _ n ih =>
      by_cases hn : n < 10
      · simp [decimal_of_lt hn]
      · have hrest := ih (n / 10) (by omega)
        rw [decimal_of_le (by omega), List.length_append, List.length_singleton]
        omega

theorem registrations_subscribeMany (n : ℕ) :
    (registrations false (subscribeMany n)).entries.length = n ∧
      ∀ i, (registrations false (subscribeMany n)).lookup (decimal i) ≠ none → i < n := by
  induction n with
  | zero => exact ⟨rfl, fun i hi ↦ (hi rfl).elim⟩
  | succ n ih =>
      have hsucc : registrations false (subscribeMany (n + 1)) =
          (registrations false (subscribeMany n)).insert (decimal n) ⟨some 1, n⟩ := by
        rw [subscribeMany, List.range_succ, List.map_append, List.map_singleton,
          registrations_concat]
        rfl
      have hnew : (registrations false (subscribeMany n)).lookup (decimal n) = none := by
        by_contra hold
        exact lt_irrefl _ (ih.2 n hold)
      rw [hsucc]
      refine ⟨by rw [length_insert_new hnew, ih.1], fun i hi ↦ ?_⟩
      by_cases heq : decimal i = decimal n
      · exact (decimal_injective heq).trans_lt (Nat.lt_succ_self n)
      · rw [AList.lookup_insert_ne heq] at hi
        exact (ih.2 i hi).trans (Nat.lt_succ_self n)

theorem take_subscribeMany {i n : ℕ} (h : i ≤ n) :
    (subscribeMany n).take i = subscribeMany i := by
  rw [subscribeMany, ← List.map_take, List.take_range, Nat.min_eq_left h]
  rfl

/-- After the channel `2 ^ 30` is registered as well, an iteration gives nothing. -/
theorem tables_many_channels :
    (∀ op ∈ subscribeMany (2 ^ 30 + 1), ShortName op.name) ∧
      (∀ pattern i, (registrations pattern
        ((subscribeMany (2 ^ 30 + 1)).take i)).entries.length < 2 ^ 31) ∧
      ¬∃ t, runTables (subscribeMany (2 ^ 30 + 1)) = some t ∧
        Answers (subscribeMany (2 ^ 30 + 1)) t := by
  generalize hn : 2 ^ 30 + 1 = n
  have hlen : (subscribeMany n).length = n := by simp [subscribeMany]
  have hnames : ∀ op ∈ subscribeMany n, ShortName op.name := by
    intro op hop
    obtain ⟨i, hi, rfl⟩ := List.mem_map.mp hop
    have hle := length_decimal_le i
    rw [List.mem_range] at hi
    show (decimal i).length < 2 ^ 31
    omega
  have hfew : ∀ pattern i,
      (registrations pattern ((subscribeMany n).take i)).entries.length < 2 ^ 31 := by
    intro pattern i
    have hle := length_registrations_le pattern ((subscribeMany n).take i)
    rw [List.length_take] at hle
    omega
  refine ⟨hnames, hfew, ?_⟩
  rintro ⟨t', hrun', hanswers⟩
  obtain ⟨t, hrun, ht⟩ := runTables_refines hnames hfew
  obtain rfl : t = t' := Option.some.inj (hrun.symm.trans hrun')
  have hcount := (registrations_subscribeMany n).1
  have hover : Overfills false (subscribeMany n) := by
    refine ⟨2 ^ 30, decimal (2 ^ 30), ⟨some 1, 2 ^ 30⟩, ?_, ?_⟩
    · rw [subscribeMany, List.getElem?_map, List.getElem?_range (by omega)]
      rfl
    · rw [take_subscribeMany (by omega), (registrations_subscribeMany (2 ^ 30)).1]
  have hruns := (dictEntries_perm_iff (ht false).1).mp (hanswers.runs false)
  rw [(ht false).2] at hruns
  rcases hruns with hempty | hno
  · rw [hempty, List.length_nil] at hcount
    omega
  · exact hno hover

end MuxHiredis
