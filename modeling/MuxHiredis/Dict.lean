import MuxHiredis.Lib.Chains
import MuxHiredis.Reader.Encoding

/-!
# Hash tables

`dict.c`.  Allocations succeed.  A pointer to an entry is the list of the entries
of its chain from it on, and empty for `NULL`.  A failed assertion, or an access
outside of the table, is a result `none`.  `unsigned long` arithmetic wraps around
at `2 ^ 64` and a conversion to `int` at `2 ^ 32`.
-/

namespace MuxHiredis

open Chains

/-- The functions of a `dictType` that decide where an entry is.  Its other
functions copy values and free what is removed. -/
structure DictType (K : Type) where
  hashFunction : K → UInt32
  keyCompare : K → K → Bool

/-- `table` is `NULL` while it has no slots; `size` is its number of slots. -/
structure Dict (K V : Type) where
  table : Table K V
  used : ℕ

namespace Dict

variable {K V : Type}

def size (ht : Dict K V) : ℕ := ht.table.length

def dictCreate : Dict K V := ⟨[], 0⟩

/-- `dictHashKey(ht, key) & ht->sizemask`, for a table of `size` slots. -/
def slot (type : DictType K) (size : ℕ) (key : K) : ℕ :=
  (type.hashFunction key).toNat &&& (size - 1)

/-- The loop of `_dictNextPower`, of at most 61 rounds. -/
def dictNextPowerFrom : ℕ → ℕ → ℕ → ℕ
  | 0, i, _ => i
  | fuel + 1, i, size => if size ≤ i then i else dictNextPowerFrom fuel (i * 2 % 2 ^ 64) size

/-- `_dictNextPower`. -/
def dictNextPower (size : ℕ) : ℕ :=
  if 2 ^ 63 - 1 ≤ size then 2 ^ 63 - 1 else dictNextPowerFrom 64 4 size

/-- The loop of `dictExpand`: the old slots, `ht->used` and the new table. -/
def rehash (slot : K → ℕ) : Table K V → ℕ → Table K V → Table K V × ℕ
  | [], used, n => (n, used)
  | chain :: rest, used, n =>
      if used = 0 then (n, used)
      else
        rehash slot rest ((used + (2 ^ 64 - chain.length % 2 ^ 64)) % 2 ^ 64)
          (moveChain slot chain n)

section Tables

variable (type : DictType K)

/-- `dictExpand`, which says whether it is `DICT_OK`. -/
def dictExpand (size : ℕ) (ht : Dict K V) : Option (Bool × Dict K V) :=
  if size < ht.used then some (false, ht)
  else
    let realsize := dictNextPower size
    let p := rehash (slot type realsize) ht.table ht.used (List.replicate realsize [])
    if p.2 = 0 then some (true, ⟨p.1, ht.used⟩) else none

/-- `_dictExpandIfNeeded`. -/
def dictExpandIfNeeded (ht : Dict K V) : Option (Bool × Dict K V) :=
  if ht.size = 0 then ht.dictExpand type 4
  else if ht.used = ht.size then ht.dictExpand type (ht.size * 2 % 2 ^ 64)
  else some (true, ht)

/-- `_dictKeyIndex`, which returns an `int`. -/
def dictKeyIndex (key : K) (ht : Dict K V) : Option (ℤ × Dict K V) :=
  (ht.dictExpandIfNeeded type).bind fun p ↦
    if p.1 then
      let h := slot type p.2.size key
      p.2.table[h]?.map fun chain ↦
        if chain.any fun e ↦ type.keyCompare key e.1 then (-1, p.2) else (wrap32 h, p.2)
    else some (-1, p.2)

/-- `dictAdd`, which says whether it is `DICT_OK`. -/
def dictAdd (key : K) (val : V) (ht : Dict K V) : Option (Bool × Dict K V) :=
  (ht.dictKeyIndex type key).bind fun p ↦
    if p.1 = -1 then some (false, p.2)
    else if p.1 < 0 then none
    else
      p.2.table[p.1.toNat]?.map fun chain ↦
        (true, ⟨p.2.table.set p.1.toNat ((key, val) :: chain), (p.2.used + 1) % 2 ^ 64⟩)

/-- `dictFind`, with the value of the entry it finds. -/
def dictFind (key : K) (ht : Dict K V) : Option V :=
  if ht.size = 0 then none
  else
    ht.table[slot type ht.size key]?.bind fun chain ↦
      (chain.find? fun e ↦ type.keyCompare key e.1).map Prod.snd

/-- `dictReplace`, which says whether the key was added. -/
def dictReplace (key : K) (val : V) (ht : Dict K V) : Option (Bool × Dict K V) :=
  (ht.dictAdd type key val).bind fun p ↦
    if p.1 then some (true, p.2)
    else
      let h := slot type p.2.size key
      p.2.table[h]?.bind fun chain ↦
        if chain.any fun e ↦ type.keyCompare key e.1 then
          some (false,
            { p.2 with table := p.2.table.set h (update (type.keyCompare key) val chain) })
        else none

/-- `dictDelete`, which says whether it is `DICT_OK`. -/
def dictDelete (key : K) (ht : Dict K V) : Bool × Dict K V :=
  if ht.size = 0 then (false, ht)
  else
    let h := slot type ht.size key
    let chain := ht.table[h]?.getD []
    if chain.any fun e ↦ type.keyCompare key e.1 then
      (true, ⟨ht.table.set h (chain.eraseP fun e ↦ type.keyCompare key e.1),
        (ht.used + (2 ^ 64 - 1)) % 2 ^ 64⟩)
    else (false, ht)

end Tables

/-! ## Iterators -/

structure Iterator (K V : Type) where
  index : ℤ
  entry : List (K × V)
  nextEntry : List (K × V)

/-- `dictGetIterator`. -/
def dictGetIterator : Iterator K V := ⟨-1, [], []⟩

/-- The first part of a round of `dictNext`, which ends the loop after the last
slot. -/
def advance (ht : Dict K V) (iter : Iterator K V) : Option (Iterator K V) :=
  match iter.entry with
  | [] =>
      let index := wrap32 (iter.index + 1)
      if wrap32 ht.size ≤ index then none
      else some { iter with index := index, entry := ht.table[index.toNat]?.getD [] }
  | _ :: _ => some { iter with entry := iter.nextEntry }

/-- The loop of `dictNext`.  Every round but the first goes to another slot,
which bounds it. -/
def dictNextFor (ht : Dict K V) : ℕ → Iterator K V → Option ((K × V) × Iterator K V)
  | 0, _ => none
  | fuel + 1, iter =>
      (ht.advance iter).bind fun iter ↦
        match iter.entry with
        | [] => dictNextFor ht fuel iter
        | e :: next => some (e, { iter with nextEntry := next })

def dictNext (ht : Dict K V) (iter : Iterator K V) : Option ((K × V) × Iterator K V) :=
  ht.dictNextFor (ht.size + 2) iter

/-- What `while ((de = dictNext(it)) != NULL)` goes through. -/
def entriesFor (ht : Dict K V) : ℕ → Iterator K V → List (K × V)
  | 0, _ => []
  | fuel + 1, iter =>
      match ht.dictNext iter with
      | none => []
      | some (e, iter) => e :: entriesFor ht fuel iter

/-- The entries that an iterator gives, each of which is in the table. -/
def dictEntries (ht : Dict K V) : List (K × V) :=
  ht.entriesFor (ht.table.flatten.length + 1) dictGetIterator

/-! ## What a table refines -/

section Refines

variable {type : DictType K}

theorem slot_lt {size : ℕ} (h : 0 < size) (key : K) : slot type size key < size := by
  have hle : slot type size key ≤ size - 1 := Nat.and_le_right
  omega

theorem exists_chain (type : DictType K) {ht : Dict K V} (h : 0 < ht.size) (key : K) :
    ∃ chain, ht.table[slot type ht.size key]? = some chain :=
  ⟨_, List.getElem?_eq_getElem (slot_lt h key)⟩

theorem dictNextPowerFrom_eq {fuel i size : ℕ} (k : ℕ) (hsize : size = i * 2 ^ k)
    (hi : 0 < i) (hlt : size < 2 ^ 64) (hfuel : k < fuel) :
    dictNextPowerFrom fuel i size = size := by
  induction k generalizing fuel i with
  | zero =>
      obtain ⟨fuel, rfl⟩ : ∃ f, fuel = f + 1 := ⟨fuel - 1, by omega⟩
      rw [dictNextPowerFrom, if_pos (by omega)]
      omega
  | succ k ih =>
      obtain ⟨fuel, rfl⟩ : ∃ f, fuel = f + 1 := ⟨fuel - 1, by omega⟩
      have hpow : 0 < 2 ^ k := Nat.two_pow_pos k
      have hdouble : size = i * 2 * 2 ^ k := by
        rw [hsize, pow_succ]
        ring
      have hi2 : i * 2 ≤ size := hdouble ▸ Nat.le_mul_of_pos_right _ hpow
      rw [dictNextPowerFrom, if_neg (by omega), Nat.mod_eq_of_lt (by omega)]
      exact ih hdouble (by omega) (by omega)

/-- A power of two is its own next power. -/
theorem dictNextPower_two_pow {k : ℕ} (hk : k + 2 < 63) :
    dictNextPower (2 ^ (k + 2)) = 2 ^ (k + 2) := by
  have hlt : 2 ^ (k + 2) ≤ 2 ^ 62 := Nat.pow_le_pow_right (by decide) (by omega)
  rw [dictNextPower, if_neg (by omega)]
  exact dictNextPowerFrom_eq k (by rw [pow_add]; ring) (by decide) (by omega) (by omega)

theorem rehash_eq (slot : K → ℕ) {chains : Table K V} {used : ℕ}
    (hused : used = chains.flatten.length) (hlt : used < 2 ^ 64) (n : Table K V) :
    rehash slot chains used n =
      (chains.foldl (fun t chain ↦ moveChain slot chain t) n, 0) := by
  induction chains generalizing used n with
  | nil =>
      obtain rfl : used = 0 := hused
      rfl
  | cons chain chains ih =>
      rw [List.flatten_cons, List.length_append] at hused
      by_cases hzero : used = 0
      · -- The loop ends early: the chains that are left are empty.
        have hrest : rehash slot chains 0 n = _ := ih (by omega) (by decide) n
        obtain rfl : chain = [] := List.length_eq_zero_iff.mp (by omega)
        rw [rehash, if_pos hzero, hzero, List.foldl_cons]
        have hstop : rehash slot chains 0 n = (n, 0) := by
          cases chains with
          | nil => rfl
          | cons c cs => rw [rehash, if_pos rfl]
        rw [hstop] at hrest
        exact hrest
      · rw [rehash, if_neg hzero, List.foldl_cons]
        exact ih (by omega) (by omega) _

/-- The comparison of keys is equality, for keys of a kind. -/
def Lawful (type : DictType K) (P : K → Prop) [DecidableEq K] : Prop :=
  ∀ key key', P key → P key' → type.keyCompare key key' = decide (key' = key)

/-- The table holds the entries of the map, and has a number of slots for as many
entries. -/
structure Refines (type : DictType K) (P : K → Prop) [DecidableEq K] (ht : Dict K V)
    (m : Map K V) : Prop where
  represents : Represents (slot type ht.size) ht.table m
  keys : ∀ key val, m.lookup key = some val → P key
  used : ht.used = m.entries.length
  fits : ht.used ≤ ht.size
  size : ht.size = 0 ∨ ∃ k, ht.size = 2 ^ (k + 2)
  bounded : ht.size ≤ 2 ^ 31

variable {P : K → Prop} [DecidableEq K] {ht : Dict K V} {m : Map K V}

theorem refines_dictCreate : Refines type P (dictCreate : Dict K V) ∅ :=
  ⟨⟨.refl _, by simp [dictCreate]⟩, by simp, rfl, le_rfl, Or.inl rfl, Nat.zero_le _⟩

theorem Refines.length_flatten (h : Refines type P ht m) : ht.table.flatten.length = ht.used := by
  rw [h.represents.entries.length_eq, h.used, pairs, List.length_map]

/-- In the chain of a key all keys are of the kind. -/
theorem Refines.same (h : Refines type P ht m) (hlaw : Lawful type P) {key : K} (hkey : P key)
    {i : ℕ} {chain : List (K × V)} (hchain : ht.table[i]? = some chain) :
    ∀ e ∈ chain, type.keyCompare key e.1 = decide (e.1 = key) := by
  intro e he
  have hmem : (e.1, e.2) ∈ ht.table.flatten :=
    List.mem_flatten.mpr ⟨chain, List.mem_of_getElem? hchain, he⟩
  exact hlaw key e.1 hkey (h.keys e.1 e.2 (mem_pairs.mp (h.represents.entries.mem_iff.mp hmem)))

theorem any_same_iff {chain : List (K × V)} {key : K}
    (hsame : ∀ e ∈ chain, type.keyCompare key e.1 = decide (e.1 = key)) :
    (chain.any fun e ↦ type.keyCompare key e.1) = true ↔ ∃ e ∈ chain, e.1 = key := by
  rw [List.any_eq_true]
  refine exists_congr fun e ↦ and_congr_right fun he ↦ ?_
  rw [hsame e he, decide_eq_true_eq]

/-! ## Growing -/

/-- The number of slots once there is room for another entry. -/
def grownSize (ht : Dict K V) : ℕ :=
  if ht.size = 0 then 4 else if ht.used = ht.size then ht.size * 2 else ht.size

theorem dictExpand_refines (h : Refines type P ht m) {k : ℕ} (hk : k + 2 ≤ 31)
    (hroom : ht.used < 2 ^ (k + 2)) :
    ∃ ht', ht.dictExpand type (2 ^ (k + 2)) = some (true, ht') ∧ Refines type P ht' m ∧
      ht'.size = 2 ^ (k + 2) ∧ ht'.used = ht.used := by
  have hpow : 2 ^ (k + 2) ≤ 2 ^ 31 := Nat.pow_le_pow_right (by decide) hk
  have hpos : 0 < 2 ^ (k + 2) := Nat.two_pow_pos _
  have hplaced : ∀ i c, (List.replicate (2 ^ (k + 2)) ([] : List (K × V)))[i]? = some c →
      ∀ e ∈ c, slot type (2 ^ (k + 2)) e.1 = i := by
    intro i c hc e he
    rw [List.eq_of_mem_replicate (List.mem_of_getElem? hc)] at he
    simp at he
  have hroomy : ∀ e ∈ ht.table.flatten, slot type (2 ^ (k + 2)) e.1 <
      (List.replicate (2 ^ (k + 2)) ([] : List (K × V))).length := by
    intro e _
    rw [List.length_replicate]
    exact slot_lt hpos e.1
  obtain ⟨hperm, hall, hlen⟩ := moveChains_spec ht.table hroomy hplaced
  rw [List.length_replicate] at hlen
  refine ⟨⟨ht.table.foldl (fun t chain ↦ moveChain (slot type (2 ^ (k + 2))) chain t)
    (List.replicate (2 ^ (k + 2)) []), ht.used⟩, ?_, ?_, hlen, rfl⟩
  · rw [dictExpand, if_neg (by omega), dictNextPower_two_pow (by omega)]
    simp only [rehash_eq _ h.length_flatten.symm (show ht.used < 2 ^ 64 by omega), if_true]
  · have hsize : Dict.size (⟨_, ht.used⟩ : Dict K V) = 2 ^ (k + 2) := hlen
    have hempty : (List.replicate (2 ^ (k + 2)) ([] : List (K × V))).flatten = [] := by simp
    refine ⟨⟨?_, ?_⟩, h.keys, h.used, ?_, Or.inr ⟨k, hsize⟩, hsize.trans_le hpow⟩
    · rw [hempty, List.append_nil] at hperm
      exact hperm.trans h.represents.entries
    · rw [hsize]
      exact hall
    · rw [hsize]
      exact hroom.le

/-- After `_dictExpandIfNeeded` there is room for another entry. -/
theorem dictExpandIfNeeded_refines (h : Refines type P ht m) (hfew : m.entries.length < 2 ^ 31) :
    ∃ ht', ht.dictExpandIfNeeded type = some (true, ht') ∧ Refines type P ht' m ∧
      ht'.size = ht.grownSize ∧ ht'.used < ht'.size := by
  have hused := h.used
  have hfits := h.fits
  unfold dictExpandIfNeeded grownSize
  by_cases hzero : ht.size = 0
  · obtain ⟨ht', hexpand, href, hsize, hsame⟩ :=
      dictExpand_refines (k := 0) h (by decide) (by omega)
    rw [if_pos hzero, if_pos hzero]
    exact ⟨ht', hexpand, href, hsize, by omega⟩
  · rw [if_neg hzero, if_neg hzero]
    by_cases hfull : ht.used = ht.size
    · obtain ⟨k, hk⟩ := h.size.resolve_left hzero
      have hk31 : k + 2 < 31 := by
        refine (Nat.pow_lt_pow_iff_right (a := 2) (by decide)).mp ?_
        omega
      have hdouble : ht.size * 2 = 2 ^ (k + 1 + 2) := by
        rw [hk, pow_succ]
        ring
      have hpow : 2 ^ (k + 1 + 2) ≤ 2 ^ 31 := Nat.pow_le_pow_right (by decide) (by omega)
      have hpos : 0 < 2 ^ (k + 2) := Nat.two_pow_pos _
      obtain ⟨ht', hexpand, href, hsize, hsame⟩ :=
        dictExpand_refines (k := k + 1) h (by omega) (by omega)
      rw [if_pos hfull, if_pos hfull, hdouble, Nat.mod_eq_of_lt (by omega)]
      exact ⟨ht', hexpand, href, hsize, by omega⟩
    · rw [if_neg hfull, if_neg hfull]
      exact ⟨ht, rfl, h, rfl, by omega⟩

/-! ## Each function refines its own -/

theorem dictFind_eq (h : Refines type P ht m) (hlaw : Lawful type P) {key : K} (hkey : P key) :
    ht.dictFind type key = m.lookup key := by
  unfold dictFind
  by_cases hzero : ht.size = 0
  · have hfits := h.fits
    have hempty : m.entries = [] := List.length_eq_zero_iff.mp (by rw [← h.used]; omega)
    rw [if_pos hzero, eq_comm, AList.lookup_eq_none, AList.mem_keys, AList.keys, hempty]
    simp
  · obtain ⟨chain, hchain⟩ := exists_chain type (Nat.pos_of_ne_zero hzero) key
    rw [if_neg hzero, hchain, Option.bind_some]
    exact h.represents.find?_eq hchain (h.same hlaw hkey hchain)

/-- What changes when one chain does. -/
theorem Refines.set (h : Refines type P ht m) {i n : ℕ} {chain : List (K × V)} {m' : Map K V}
    (hrep : Represents (slot type ht.size) (ht.table.set i chain) m')
    (hkeys : ∀ key val, m'.lookup key = some val → P key) (hused : n = m'.entries.length)
    (hfits : n ≤ ht.size) :
    Refines type P ⟨ht.table.set i chain, n⟩ m' ∧
      Dict.size ⟨ht.table.set i chain, n⟩ = ht.size := by
  have hsize : Dict.size ⟨ht.table.set i chain, n⟩ = ht.size := List.length_set
  refine ⟨⟨?_, hkeys, hused, ?_, ?_, ?_⟩, hsize⟩ <;> rw [hsize]
  · exact hrep
  · exact hfits
  · exact h.size
  · exact h.bounded

theorem keys_insert (h : ∀ key val, m.lookup key = some val → P key) {key : K}
    (hkey : P key) (val : V) :
    ∀ key' val', (m.insert key val).lookup key' = some val' → P key' := by
  intro key' val' hval'
  by_cases heq : key' = key
  · exact heq ▸ hkey
  · rw [AList.lookup_insert_ne heq] at hval'
    exact h key' val' hval'

theorem length_insert_new {key : K} (h : m.lookup key = none) (val : V) :
    (m.insert key val).entries.length = m.entries.length + 1 := by
  rw [AList.entries_insert_of_notMem (AList.lookup_eq_none.mp h), List.length_cons]

theorem length_erase {key : K} (h : m.lookup key ≠ none) :
    (m.erase key).entries.length + 1 = m.entries.length := by
  obtain ⟨val, hval⟩ := Option.ne_none_iff_exists'.mp h
  have hlen := (pairs_perm_erase hval).length_eq
  simp only [pairs, List.length_cons, List.length_map] at hlen
  exact hlen.symm

theorem length_insert_old {key : K} (h : m.lookup key ≠ none) (val : V) :
    (m.insert key val).entries.length = m.entries.length := by
  have hlen := (pairs_insert_perm (m := m) key val).length_eq
  simp only [pairs, List.length_cons, List.length_map] at hlen
  rw [hlen, length_erase h]

theorem dictReplace_refines (h : Refines type P ht m) (hlaw : Lawful type P) {key : K}
    (hkey : P key) (val : V) (hfew : m.entries.length < 2 ^ 31) :
    ∃ ht', ht.dictReplace type key val = some (decide (m.lookup key = none), ht') ∧
      Refines type P ht' (m.insert key val) ∧ ht'.size = ht.grownSize := by
  obtain ⟨ht₁, hexpand, h₁, hsize, hroom⟩ := dictExpandIfNeeded_refines h hfew
  have hpos : 0 < ht₁.size := by omega
  obtain ⟨chain, hchain⟩ := exists_chain type hpos key
  have hsame := h₁.same hlaw hkey hchain
  have hslot : slot type ht₁.size key < ht₁.size := slot_lt hpos key
  have hbounded := h₁.bounded
  have hused := h₁.used
  have hkeys := keys_insert h₁.keys hkey val
  have hany := (any_same_iff hsame).trans (h₁.represents.exists_mem_chain hchain)
  have hindex : wrap32 (slot type ht₁.size key) = slot type ht₁.size key :=
    wrap32_of_lt (by omega) (by omega)
  by_cases hnew : m.lookup key = none
  · have hno : (chain.any fun e ↦ type.keyCompare key e.1) = false :=
      eq_false_of_ne_true fun hyes ↦ hany.mp hyes hnew
    obtain ⟨href, hsize'⟩ := h₁.set (n := ht₁.used + 1)
      (h₁.represents.cons hchain hnew val) hkeys
      (by rw [length_insert_new hnew, hused]) (by omega)
    refine ⟨_, ?_, href, hsize'.trans hsize⟩
    simp only [dictReplace, dictAdd, dictKeyIndex, hexpand, Option.bind_some, if_true, hchain,
      Option.map_some, hno, Bool.false_eq_true, if_false, hindex]
    rw [if_neg (by omega), if_neg (by omega), Int.toNat_natCast, hchain,
      Nat.mod_eq_of_lt (by omega)]
    simp [hnew]
  · have hyes : (chain.any fun e ↦ type.keyCompare key e.1) = true := hany.mpr hnew
    obtain ⟨href, hsize'⟩ := h₁.set (n := ht₁.used)
      (h₁.represents.update hchain hsame hnew val) hkeys
      (by rw [length_insert_old hnew, hused]) (by omega)
    refine ⟨_, ?_, href, hsize'.trans hsize⟩
    simp only [dictReplace, dictAdd, dictKeyIndex, hexpand, Option.bind_some, if_true, hchain,
      Option.map_some, hyes, Bool.false_eq_true, if_false]
    simp [hnew]

theorem dictDelete_refines (h : Refines type P ht m) (hlaw : Lawful type P) {key : K}
    (hkey : P key) :
    Refines type P (ht.dictDelete type key).2 (m.erase key) ∧
      (ht.dictDelete type key).2.size = ht.size := by
  have hfits := h.fits
  have hbounded := h.bounded
  have habsent (hnone : m.lookup key = none) : m.erase key = m := by
    apply AList.ext
    exact List.kerase_of_notMem_keys (AList.lookup_eq_none.mp hnone)
  unfold dictDelete
  by_cases hzero : ht.size = 0
  · have hempty : m.entries = [] := List.length_eq_zero_iff.mp (by rw [← h.used]; omega)
    have hnone : m.lookup key = none := by
      rw [AList.lookup_eq_none, AList.mem_keys, AList.keys, hempty]
      simp
    rw [if_pos hzero, habsent hnone]
    exact ⟨h, rfl⟩
  · obtain ⟨chain, hchain⟩ := exists_chain type (Nat.pos_of_ne_zero hzero) key
    have hsame := h.same hlaw hkey hchain
    have hany := (any_same_iff hsame).trans (h.represents.exists_mem_chain hchain)
    simp only [if_neg hzero, hchain, Option.getD_some]
    by_cases hnone : m.lookup key = none
    · rw [if_neg fun hyes ↦ hany.mp hyes hnone, habsent hnone]
      exact ⟨h, rfl⟩
    · have hlen := length_erase hnone
      have hused := h.used
      rw [if_pos (hany.mpr hnone)]
      have hcount : (ht.used + (2 ^ 64 - 1)) % 2 ^ 64 = (m.erase key).entries.length := by omega
      refine h.set (h.represents.unlink hchain hsame hnone) ?_ hcount (by omega)
      intro key' val' hval'
      by_cases heq : key' = key
      · rw [heq, AList.lookup_erase] at hval'
        simp at hval'
      · rw [AList.lookup_erase_ne heq] at hval'
        exact h.keys key' val' hval'

end Refines

/-! ## What an iterator goes through -/

section Iterators

variable {ht : Dict K V}

/-- The iterator stands before the entries `rest`: what is left of the chain it is
in, and the chains from the slot `k` on. -/
structure Iterator.Before (ht : Dict K V) (iter : Iterator K V) (k : ℕ) (rest : List (K × V)) :
    Prop where
  index : iter.index + 1 = k
  inside : k ≤ ht.size
  rest : rest = (if iter.entry = [] then [] else iter.nextEntry) ++ (ht.table.drop k).flatten

/-- A call of `dictNext` gives the next entry. -/
def Gives (ht : Dict K V) (r : Option ((K × V) × Iterator K V)) (rest : List (K × V)) : Prop :=
  match rest with
  | [] => r = none
  | e :: rest => ∃ iter k, r = some (e, iter) ∧ iter.Before ht k rest

/-- From the end of a chain the iterator goes through the slots. -/
theorem dictNextFor_slots (hsize : ht.size < 2 ^ 31) {fuel k : ℕ} {iter : Iterator K V}
    (hindex : iter.index + 1 = k) (hentry : iter.entry = []) (hk : k ≤ ht.size)
    (hfuel : ht.size - k < fuel) :
    Gives ht (ht.dictNextFor fuel iter) (ht.table.drop k).flatten := by
  induction fuel generalizing iter k with
  | zero => omega
  | succ fuel ih =>
      have hwrap : wrap32 ht.size = ht.size := wrap32_of_lt (by omega) (by omega)
      have hwrap' : wrap32 (iter.index + 1) = k := by
        rw [hindex]
        exact wrap32_of_lt (by omega) (by omega)
      simp only [dictNextFor, advance, hentry, hwrap, hwrap']
      by_cases hend : ht.size ≤ k
      · rw [if_pos (by omega), List.drop_eq_nil_of_le hend]
        rfl
      · have hget : k < ht.table.length := not_le.mp hend
        rw [if_neg (by omega), List.drop_eq_getElem_cons hget, List.flatten_cons,
          Int.toNat_natCast, List.getElem?_eq_getElem hget]
        simp only [Option.bind_some, Option.getD_some]
        cases hchain : ht.table[k] with
        | nil =>
            exact ih (k := k + 1) (by push_cast; ring) rfl (by omega) (by omega)
        | cons e next =>
            exact ⟨_, k + 1, rfl, by push_cast; ring, hget, rfl⟩

theorem dictNext_gives (hsize : ht.size < 2 ^ 31) {k : ℕ} {iter : Iterator K V}
    {rest : List (K × V)} (h : iter.Before ht k rest) : Gives ht (ht.dictNext iter) rest := by
  have hinside := h.inside
  have hrest := h.rest
  cases hentry : iter.entry with
  | nil =>
      rw [if_pos hentry, List.nil_append] at hrest
      rw [hrest, dictNext]
      exact dictNextFor_slots hsize h.index hentry hinside (by omega)
  | cons e₀ tail =>
      rw [if_neg (by simp [hentry])] at hrest
      simp only [dictNext, dictNextFor, advance, hentry, Option.bind_some]
      cases hnext : iter.nextEntry with
      | nil =>
          rw [hnext, List.nil_append] at hrest
          rw [hrest]
          have hslots : Gives ht (ht.dictNextFor (ht.size + 1) ⟨iter.index, [], []⟩) _ :=
            dictNextFor_slots hsize h.index rfl hinside (by omega)
          exact hslots
      | cons e next =>
          rw [hnext, List.cons_append] at hrest
          rw [hrest]
          exact ⟨_, k, rfl, h.index, hinside, rfl⟩

theorem entriesFor_eq (hsize : ht.size < 2 ^ 31) {fuel k : ℕ} {iter : Iterator K V}
    {rest : List (K × V)} (h : iter.Before ht k rest) (hfuel : rest.length < fuel) :
    ht.entriesFor fuel iter = rest := by
  induction fuel generalizing iter k rest with
  | zero => omega
  | succ fuel ih =>
      have hgives := dictNext_gives hsize h
      cases rest with
      | nil =>
          have hnone : ht.dictNext iter = none := hgives
          rw [entriesFor, hnone]
      | cons e rest =>
          obtain ⟨iter', k', hsome, h'⟩ := hgives
          rw [entriesFor, hsome]
          exact congrArg (e :: ·) (ih h' (by simpa using hfuel))

/-- Every entry once, while the number of slots fits an `int`. -/
theorem dictEntries_eq (hsize : ht.size < 2 ^ 31) : ht.dictEntries = ht.table.flatten :=
  entriesFor_eq hsize (k := 0) ⟨rfl, Nat.zero_le _, by simp [dictGetIterator]⟩ (by omega)

/-- With `2 ^ 31` slots the bound of the loop is negative. -/
theorem dictEntries_overflow (hsize : ht.size = 2 ^ 31) : ht.dictEntries = [] := by
  have hend : (ht.advance dictGetIterator) = none := by
    simp only [advance, dictGetIterator, hsize]
    exact if_pos (by decide)
  have hnone : ht.dictNext dictGetIterator = none := by
    rw [dictNext, dictNextFor, hend]
    rfl
  rw [dictEntries, entriesFor, hnone]

end Iterators

end Dict

end MuxHiredis
