import Mathlib.Data.List.AList
import Mathlib.Data.List.Perm.Basic
import Mathlib.Tactic

/-!
# Tables of chains

A hash table is a list of chains of entries.  It represents a finite map when
its entries are those of the map, in any order, and each stands in the chain that
its key is sent to.  What follows are the changes of one chain that keep this, for
an arbitrary assignment of keys to chains.
-/

namespace Chains

variable {K V : Type*}

/-- The chains of a table. -/
abbrev Table (K V : Type*) := List (List (K × V))

/-- A finite map. -/
abbrev Map (K V : Type*) := AList fun _ : K ↦ V

/-- The entries of a map. -/
def pairs (m : Map K V) : List (K × V) := m.entries.map fun e ↦ (e.1, e.2)

structure Represents (slot : K → ℕ) (t : Table K V) (m : Map K V) : Prop where
  entries : t.flatten.Perm (pairs m)
  placed : ∀ i chain, t[i]? = some chain → ∀ e ∈ chain, slot e.1 = i

/-- Give the first entry of a chain that is of the key a new value. -/
def update (same : K → Bool) (v : V) : List (K × V) → List (K × V)
  | [] => []
  | e :: chain => if same e.1 then (e.1, v) :: chain else e :: update same v chain

/-- Move the entries of a chain to the heads of new chains. -/
def moveChain (slot : K → ℕ) (chain : List (K × V)) (t : Table K V) : Table K V :=
  chain.foldl (fun t e ↦ t.modify (slot e.1) (e :: ·)) t

/-! ## Where entries stand -/

variable {slot : K → ℕ} {t : Table K V} {m : Map K V} {same : K → Bool} {k : K}
  {chain : List (K × V)}

theorem flatten_set_perm {i : ℕ} (h : t[i]? = some chain) (chain' : List (K × V)) :
    (t.set i chain').flatten.Perm (chain' ++ (t.eraseIdx i).flatten) := by
  obtain ⟨hi, rfl⟩ := List.getElem?_eq_some_iff.mp h
  rw [List.set_eq_take_append_cons_drop, if_pos hi, List.eraseIdx_eq_take_drop_succ,
    List.flatten_append, List.flatten_append, List.flatten_cons, ← List.append_assoc,
    ← List.append_assoc]
  exact List.perm_append_comm.append_right _

theorem flatten_perm {i : ℕ} (h : t[i]? = some chain) :
    t.flatten.Perm (chain ++ (t.eraseIdx i).flatten) := by
  have hset := flatten_set_perm h chain
  obtain ⟨hi, rfl⟩ := List.getElem?_eq_some_iff.mp h
  rwa [List.set_getElem_self] at hset

/-- The entries of a changed chain stand where they should. -/
theorem Represents.placed_set (h : Represents slot t m) {chain' : List (K × V)}
    (hchain' : ∀ e ∈ chain', slot e.1 = slot k) (i : ℕ) (c : List (K × V))
    (hc : (t.set (slot k) chain')[i]? = some c) : ∀ e ∈ c, slot e.1 = i := by
  by_cases hi : slot k = i
  · subst hi
    rw [List.getElem?_set_self'] at hc
    obtain ⟨_, -, rfl⟩ := Option.map_eq_some_iff.mp hc
    exact hchain'
  · rw [List.getElem?_set_ne hi] at hc
    exact h.placed i c hc

/-- What is moved stands where it should in the new table. -/
theorem moveChain_spec (chain : List (K × V)) (h : ∀ e ∈ chain, slot e.1 < t.length)
    (hplaced : ∀ i c, t[i]? = some c → ∀ e ∈ c, slot e.1 = i) :
    (moveChain slot chain t).flatten.Perm (chain ++ t.flatten) ∧
      (∀ i c, (moveChain slot chain t)[i]? = some c → ∀ e ∈ c, slot e.1 = i) ∧
      (moveChain slot chain t).length = t.length := by
  induction chain generalizing t with
  | nil => exact ⟨.refl _, hplaced, rfl⟩
  | cons e chain ih =>
      have hslot : slot e.1 < t.length := h e (by simp)
      have hget : t[slot e.1]? = some t[slot e.1] := List.getElem?_eq_getElem hslot
      have hmodify : t.modify (slot e.1) (e :: ·) = t.set (slot e.1) (e :: t[slot e.1]) := by
        rw [List.modify_eq_set_getElem?, hget]
        rfl
      have hplaced' : ∀ i c, (t.modify (slot e.1) (e :: ·))[i]? = some c →
          ∀ e' ∈ c, slot e'.1 = i := by
        intro i c hc e' he'
        rw [hmodify] at hc
        by_cases hi : slot e.1 = i
        · subst hi
          rw [List.getElem?_set_self hslot] at hc
          obtain rfl := Option.some.inj hc
          rcases List.mem_cons.mp he' with rfl | he'
          · rfl
          · exact hplaced _ _ hget e' he'
        · rw [List.getElem?_set_ne hi] at hc
          exact hplaced i c hc e' he'
      obtain ⟨hperm, hall, hlen⟩ := ih (t := t.modify (slot e.1) (e :: ·))
        (fun e' he' ↦ by rw [List.length_modify]; exact h e' (by simp [he'])) hplaced'
      refine ⟨hperm.trans ?_, hall, hlen.trans (List.length_modify ..)⟩
      have hone : (t.modify (slot e.1) (e :: ·)).flatten.Perm (e :: t.flatten) := by
        rw [hmodify]
        exact (flatten_set_perm hget _).trans ((flatten_perm hget).symm.cons e)
      exact ((List.Perm.refl chain).append hone).trans List.perm_middle

/-- All chains are moved. -/
theorem moveChains_spec (chains : Table K V) (h : ∀ e ∈ chains.flatten, slot e.1 < t.length)
    (hplaced : ∀ i c, t[i]? = some c → ∀ e ∈ c, slot e.1 = i) :
    (chains.foldl (fun t chain ↦ moveChain slot chain t) t).flatten.Perm
        (chains.flatten ++ t.flatten) ∧
      (∀ i c, (chains.foldl (fun t chain ↦ moveChain slot chain t) t)[i]? = some c →
        ∀ e ∈ c, slot e.1 = i) ∧
      (chains.foldl (fun t chain ↦ moveChain slot chain t) t).length = t.length := by
  induction chains generalizing t with
  | nil => exact ⟨.refl _, hplaced, rfl⟩
  | cons chain chains ih =>
      obtain ⟨hone, hplaced', hlen⟩ := moveChain_spec chain
        (fun e he ↦ h e (by simp [he])) hplaced
      obtain ⟨hperm, hall, hlen'⟩ := ih (t := moveChain slot chain t)
        (fun e he ↦ hlen.symm ▸ h e (by rw [List.flatten_cons]; exact List.mem_append_right _ he))
        hplaced'
      refine ⟨hperm.trans ?_, hall, hlen'.trans hlen⟩
      rw [List.flatten_cons, List.append_assoc]
      refine ((List.Perm.refl _).append hone).trans ?_
      rw [← List.append_assoc, ← List.append_assoc]
      exact List.perm_append_comm.append_right _

variable [DecidableEq K]

/-! ## Entries of maps -/

theorem mem_pairs {v : V} : (k, v) ∈ pairs m ↔ m.lookup k = some v := by
  rw [← Option.mem_def, AList.mem_lookup_iff, pairs, List.mem_map]
  constructor
  · rintro ⟨⟨k', v'⟩, hmem, heq⟩
    cases heq
    exact hmem
  · exact fun h ↦ ⟨⟨k, v⟩, h, rfl⟩

theorem pairs_insert_of_lookup_none (h : m.lookup k = none) (v : V) :
    pairs (m.insert k v) = (k, v) :: pairs m := by
  rw [pairs, AList.entries_insert_of_notMem (AList.lookup_eq_none.mp h)]
  rfl

/-- The entry of a key, and those of the map from which the key is erased. -/
theorem pairs_perm_erase {v : V} (h : m.lookup k = some v) :
    (pairs m).Perm ((k, v) :: pairs (m.erase k)) := by
  have hmem : (⟨k, v⟩ : Sigma fun _ ↦ V) ∈ m.entries := AList.mem_lookup_iff.mp h
  obtain ⟨v', pre, post, -, hentries, herase⟩ :=
    List.exists_of_kerase (List.mem_keys_of_mem hmem)
  obtain rfl : v' = v := by
    have hsome : m.lookup k = some v' := AList.mem_lookup_iff.mpr (hentries ▸ by simp)
    exact Option.some.inj (hsome.symm.trans h)
  have herased : (m.erase k).entries = pre ++ post := herase
  rw [pairs, pairs, hentries, herased, List.map_append, List.map_append, List.map_cons]
  exact List.perm_middle

theorem pairs_insert_perm (k : K) (v : V) :
    (pairs (m.insert k v)).Perm ((k, v) :: pairs (m.erase k)) := by
  rw [pairs, AList.entries_insert]
  rfl

/-! ## One chain -/

/-- Where a key stands in a chain, and what is made of the chain there. -/
theorem chain_split (hsame : ∀ e ∈ chain, same e.1 = decide (e.1 = k))
    (h : ∃ e ∈ chain, e.1 = k) :
    ∃ pre v post, chain = pre ++ (k, v) :: post ∧
      chain.find? (fun e ↦ same e.1) = some (k, v) ∧
      (∀ w, update same w chain = pre ++ (k, w) :: post) ∧
      chain.eraseP (fun e ↦ same e.1) = pre ++ post := by
  induction chain with
  | nil => simp at h
  | cons e chain ih =>
      have he := hsame e (by simp)
      by_cases hk : e.1 = k
      · rw [decide_eq_true hk] at he
        refine ⟨[], e.2, chain, ?_, ?_, fun w ↦ ?_, ?_⟩
        · rw [← hk]
          rfl
        · simp [he, ← hk]
        · rw [update, if_pos he, hk]
          rfl
        · simp [he]
      · rw [decide_eq_false hk] at he
        have hin : ∃ e ∈ chain, e.1 = k := by
          obtain ⟨e', hmem, hk'⟩ := h
          refine ⟨e', (List.mem_cons.mp hmem).resolve_left fun heq ↦ hk (heq ▸ hk'), hk'⟩
        obtain ⟨pre, v, post, hchain, hfind, hupdate, herase⟩ :=
          ih (fun e' he' ↦ hsame e' (by simp [he'])) hin
        refine ⟨e :: pre, v, post, by rw [hchain]; rfl, ?_, fun w ↦ ?_, ?_⟩
        · simpa [List.find?_cons, he] using hfind
        · rw [update, he, if_neg (by simp), hupdate]
          rfl
        · simpa [List.eraseP_cons, he] using herase

theorem find?_eq_none (hsame : ∀ e ∈ chain, same e.1 = decide (e.1 = k))
    (h : ¬∃ e ∈ chain, e.1 = k) : chain.find? (fun e ↦ same e.1) = none := by
  rw [List.find?_eq_none]
  intro e he hs
  rw [hsame e he, decide_eq_true_eq] at hs
  exact h ⟨e, he, hs⟩

/-! ## A key of the map -/

/-- Whether a key is in the map is decided in its chain. -/
theorem Represents.mem_chain (h : Represents slot t m) (hchain : t[slot k]? = some chain)
    {v : V} : (k, v) ∈ chain ↔ m.lookup k = some v := by
  rw [← mem_pairs, ← h.entries.mem_iff, List.mem_flatten]
  constructor
  · exact fun hmem ↦ ⟨chain, List.mem_of_getElem? hchain, hmem⟩
  · rintro ⟨chain', hin, hmem⟩
    obtain ⟨i, hi⟩ := List.mem_iff_getElem?.mp hin
    obtain rfl := h.placed i chain' hi _ hmem
    rw [hchain] at hi
    exact Option.some.inj hi ▸ hmem

theorem Represents.exists_mem_chain (h : Represents slot t m)
    (hchain : t[slot k]? = some chain) :
    (∃ e ∈ chain, e.1 = k) ↔ m.lookup k ≠ none := by
  rw [Option.ne_none_iff_exists']
  constructor
  · rintro ⟨⟨k', v⟩, hmem, rfl⟩
    exact ⟨v, (h.mem_chain hchain).mp hmem⟩
  · rintro ⟨v, hv⟩
    exact ⟨(k, v), (h.mem_chain hchain).mpr hv, rfl⟩

/-- Looking up a key in its chain. -/
theorem Represents.find?_eq (h : Represents slot t m) (hchain : t[slot k]? = some chain)
    (hsame : ∀ e ∈ chain, same e.1 = decide (e.1 = k)) :
    (chain.find? fun e ↦ same e.1).map Prod.snd = m.lookup k := by
  by_cases hin : ∃ e ∈ chain, e.1 = k
  · obtain ⟨pre, v, post, hsplit, hfind, -, -⟩ := chain_split hsame hin
    rw [hfind, Option.map_some, eq_comm, ← h.mem_chain hchain, hsplit]
    simp
  · rw [find?_eq_none hsame hin, Option.map_none, eq_comm]
    exact not_not.mp (mt (h.exists_mem_chain hchain).mpr hin)

/-- A new entry at the head of its chain. -/
theorem Represents.cons (h : Represents slot t m) (hchain : t[slot k]? = some chain)
    (hnew : m.lookup k = none) (v : V) :
    Represents slot (t.set (slot k) ((k, v) :: chain)) (m.insert k v) := by
  refine ⟨?_, h.placed_set fun e he ↦ ?_⟩
  · rw [pairs_insert_of_lookup_none hnew]
    refine (flatten_set_perm hchain _).trans ?_
    exact (((flatten_perm hchain).symm.trans h.entries).cons (k, v))
  · rcases List.mem_cons.mp he with rfl | he
    · rfl
    · exact h.placed _ chain hchain e he

/-- What a chain looks like at a key of the map. -/
theorem Represents.split (h : Represents slot t m) (hchain : t[slot k]? = some chain)
    (hsame : ∀ e ∈ chain, same e.1 = decide (e.1 = k)) (hold : m.lookup k ≠ none) :
    ∃ pre post, (∀ e ∈ pre ++ post, slot e.1 = slot k) ∧
      (∀ w, update same w chain = pre ++ (k, w) :: post) ∧
      chain.eraseP (fun e ↦ same e.1) = pre ++ post ∧
      ((pre ++ post) ++ (t.eraseIdx (slot k)).flatten).Perm (pairs (m.erase k)) := by
  obtain ⟨pre, v, post, hsplit, -, hupdate, herase⟩ :=
    chain_split hsame ((h.exists_mem_chain hchain).mpr hold)
  have hv : m.lookup k = some v := (h.mem_chain hchain).mp (by simp [hsplit])
  refine ⟨pre, post, fun e he ↦ h.placed _ chain hchain e ?_, hupdate, herase, ?_⟩
  · rw [hsplit]
    simp only [List.mem_append, List.mem_cons] at he ⊢
    tauto
  · have hall := (flatten_perm hchain).symm.trans (h.entries.trans (pairs_perm_erase hv))
    rw [hsplit, List.append_assoc, List.cons_append] at hall
    rw [List.append_assoc]
    exact (List.perm_middle.symm.trans hall).cons_inv

/-- A new value for a key. -/
theorem Represents.update (h : Represents slot t m) (hchain : t[slot k]? = some chain)
    (hsame : ∀ e ∈ chain, same e.1 = decide (e.1 = k)) (hold : m.lookup k ≠ none) (v : V) :
    Represents slot (t.set (slot k) (update same v chain)) (m.insert k v) := by
  obtain ⟨pre, post, hplaced, hupdate, -, hperm⟩ := h.split hchain hsame hold
  rw [hupdate]
  refine ⟨?_, h.placed_set fun e he ↦ ?_⟩
  · refine (flatten_set_perm hchain _).trans (.trans ?_ (pairs_insert_perm k v).symm)
    rw [List.append_assoc, List.cons_append]
    refine List.perm_middle.trans (.cons _ ?_)
    rwa [← List.append_assoc]
  · rw [List.mem_append, List.mem_cons] at he
    rcases he with he | rfl | he
    · exact hplaced e (List.mem_append_left _ he)
    · rfl
    · exact hplaced e (List.mem_append_right _ he)

/-- A key is unlinked from its chain. -/
theorem Represents.unlink (h : Represents slot t m) (hchain : t[slot k]? = some chain)
    (hsame : ∀ e ∈ chain, same e.1 = decide (e.1 = k)) (hold : m.lookup k ≠ none) :
    Represents slot (t.set (slot k) (chain.eraseP fun e ↦ same e.1)) (m.erase k) := by
  obtain ⟨pre, post, hplaced, -, herase, hperm⟩ := h.split hchain hsame hold
  rw [herase]
  exact ⟨(flatten_set_perm hchain _).trans hperm, h.placed_set hplaced⟩

end Chains
