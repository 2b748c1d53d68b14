import MuxHiredis.Lib.Linked
import MuxHiredis.Reader.Basic

/-!
# Time events

The chain of time events of an event loop, with the cells that `malloc` gave.
Callbacks only see `aeCreateTimeEvent`, which adds to the head of the chain, and
`aeDeleteTimeEvent`, which marks an event.
-/

namespace MuxHiredis

namespace Ae

structure TimeEvent where
  id : ℤ
  when_sec : ℤ
  when_ms : ℤ
  timeProc : ℕ
  finalizerProc : Option ℕ
  clientData : ℕ
  next : Option ℕ

def aeDeletedEventId : ℤ := -1

def aeNomore : ℤ := -1

/-- The part of `aeEventLoop` for time events.  Addresses from `allocated` on were
never used. -/
structure Timers where
  timeEventNextId : ℤ
  lastTime : ℤ
  timeEventHead : Option ℕ
  cells : ℕ → Option TimeEvent
  allocated : ℕ

/-- `aeAddMillisecondsToNow`, with the time that `aeGetTime` gave. -/
def aeAddMillisecondsToNow (now : ℤ × ℤ) (milliseconds : ℤ) : ℤ × ℤ :=
  let when_sec := now.1 + milliseconds.tdiv 1000
  let when_ms := now.2 + milliseconds.tmod 1000
  if 1000 ≤ when_ms then (when_sec + 1, when_ms - 1000) else (when_sec, when_ms)

namespace Timers

variable (t : Timers)

/-- The pointer that a cell holds. -/
def next (a : ℕ) : Option (Option ℕ) := (t.cells a).map TimeEvent.next

def set (a : ℕ) (te : TimeEvent) : Timers :=
  { t with cells := Function.update t.cells a (some te) }

/-- A new cell is the head of the chain, and an identifier is used up. -/
def push (te : TimeEvent) : Timers where
  timeEventNextId := t.timeEventNextId + 1
  lastTime := t.lastTime
  timeEventHead := some t.allocated
  cells := Function.update t.cells t.allocated (some te)
  allocated := t.allocated + 1

def aeCreateTimeEvent (now : ℤ × ℤ) (milliseconds : ℤ) (proc clientData : ℕ)
    (finalizerProc : Option ℕ) (oom : Bool) : ℤ × Timers :=
  if oom then (-1, { t with timeEventNextId := t.timeEventNextId + 1 })
  else
    let when := aeAddMillisecondsToNow now milliseconds
    (t.timeEventNextId, t.push
      { id := t.timeEventNextId
        when_sec := when.1
        when_ms := when.2
        timeProc := proc
        finalizerProc := finalizerProc
        clientData := clientData
        next := t.timeEventHead })

/-- The first event from `te` on that has the identifier; there is no result where
the chain leads to a cell that is not there. -/
def searchId (id : ℤ) : ℕ → Option ℕ → Option (Option ℕ)
  | _, none => some none
  | 0, some _ => none
  | fuel + 1, some a =>
      match t.cells a with
      | none => none
      | some te => if te.id = id then some (some a) else searchId id fuel te.next

def aeDeleteTimeEvent (id : ℤ) : Option (Status × Timers) :=
  match t.searchId id t.allocated t.timeEventHead with
  | none => none
  | some none => some (.err, t)
  | some (some a) =>
      (t.cells a).map fun te ↦ (.ok, t.set a { te with id := aeDeletedEventId })

/-- The event comes before the other one. -/
def before (te te' : TimeEvent) : Prop :=
  te.when_sec < te'.when_sec ∨ te.when_sec = te'.when_sec ∧ te.when_ms < te'.when_ms

instance (te te' : TimeEvent) : Decidable (before te te') :=
  inferInstanceAs (Decidable (_ ∨ _ ∧ _))

def nearer (te : TimeEvent) : Option TimeEvent → TimeEvent
  | none => te
  | some nearest => if before te nearest then te else nearest

def searchNearest : ℕ → Option ℕ → Option TimeEvent → Option (Option TimeEvent)
  | _, none, nearest => some nearest
  | 0, some _, _ => none
  | fuel + 1, some a, nearest =>
      match t.cells a with
      | none => none
      | some te => searchNearest fuel te.next (some (nearer te nearest))

def aeSearchNearestTimer : Option (Option TimeEvent) :=
  t.searchNearest t.allocated t.timeEventHead none

/-- All events are due, as far as seconds go. -/
def resetAll : ℕ → Option ℕ → Timers → Option Timers
  | _, none, t => some t
  | 0, some _, _ => none
  | fuel + 1, some a, t =>
      match t.cells a with
      | none => none
      | some te => resetAll fuel te.next (t.set a { te with when_sec := 0 })

/-! ## The chain -/

/-- The cells of `l` are the chain, and the identifiers decrease along it but for the
marked events. -/
structure Chained (t : Timers) (l : List ℕ) : Prop where
  linked : Linked t.next t.timeEventHead l none
  fresh : ∀ a, t.cells a ≠ none → a < t.allocated
  nonneg : 0 ≤ t.timeEventNextId
  ids : ∀ a ∈ l, ∀ te, t.cells a = some te → te.id ≠ -1 → 0 ≤ te.id ∧ te.id < t.timeEventNextId
  decreasing : l.Pairwise fun a b ↦ ∀ te te', t.cells a = some te → t.cells b = some te' →
    te.id ≠ -1 → te'.id ≠ -1 → te'.id < te.id

variable {t t' : Timers} {l added : List ℕ} {a : ℕ} {te : TimeEvent}

theorem next_eq (h : t.cells a = some te) : t.next a = some te.next := by
  rw [next, h, Option.map_some]

theorem cells_of_next (h : t.next a ≠ none) : ∃ te, t.cells a = some te := by
  apply Option.ne_none_iff_exists'.mp
  intro hnone
  exact h (by rw [next, hnone, Option.map_none])

theorem Chained.cell (h : t.Chained l) (ha : a ∈ l) : ∃ te, t.cells a = some te :=
  cells_of_next (h.linked.allocated ha)

theorem Chained.lt_allocated (h : t.Chained l) (ha : a ∈ l) : a < t.allocated := by
  obtain ⟨te, hte⟩ := h.cell ha
  exact h.fresh a (by rw [hte]; nofun)

/-- The number of cells bounds the loops over the chain. -/
theorem Chained.length_le (h : t.Chained l) : l.length ≤ t.allocated := by
  have hsub : l ⊆ List.range t.allocated := fun a ha ↦ List.mem_range.mpr (h.lt_allocated ha)
  have hle := (h.linked.nodup.subperm hsub).length_le
  rwa [List.length_range] at hle

/-- A callback adds to the head of the chain, and marks events. -/
structure Evolves (t t' : Timers) (added : List ℕ) : Prop where
  head : Linked t'.next t'.timeEventHead added t.timeEventHead
  new : ∀ a ∈ added, t.allocated ≤ a
  newId : ∀ a ∈ added, ∀ te, t'.cells a = some te → te.id ≠ -1 → t.timeEventNextId ≤ te.id
  kept : ∀ a te, t.cells a = some te →
    t'.cells a = some te ∨ t'.cells a = some { te with id := aeDeletedEventId }
  freed : ∀ a < t.allocated, t.cells a = none → t'.cells a = none
  fresh : ∀ a, t.allocated ≤ a → t'.cells a ≠ none → a ∈ added
  allocated : t.allocated ≤ t'.allocated
  nextId : t.timeEventNextId ≤ t'.timeEventNextId
  lastTime : t'.lastTime = t.lastTime

theorem Evolves.refl (h : t.Chained l) : t.Evolves t [] where
  head := .nil _
  new := nofun
  newId := nofun
  kept _ _ h := Or.inl h
  freed _ _ h := h
  fresh a ha hcell := absurd (h.fresh a hcell) (not_lt.mpr ha)
  allocated := le_refl _
  nextId := le_refl _
  lastTime := rfl

theorem Evolves.next (h : t.Evolves t' added) (ha : a < t.allocated) : t'.next a = t.next a := by
  rw [Timers.next, Timers.next]
  cases hcell : t.cells a with
  | none => rw [h.freed a ha hcell]
  | some te =>
      rcases h.kept a te hcell with hte | hte
      · rw [hte]
      · rw [hte]
        rfl

/-- What a cell of the chain is afterwards; a marked event stays marked. -/
theorem Evolves.back (h : t.Evolves t' added) (hc : t.cells a = some te) {te' : TimeEvent}
    (hc' : t'.cells a = some te') (hid : te'.id ≠ -1) : te' = te := by
  rcases h.kept a te hc with hte | hte
  · exact Option.some.inj (hc'.symm.trans hte)
  · exact absurd (congrArg TimeEvent.id (Option.some.inj (hc'.symm.trans hte))) hid

theorem Evolves.trans {t₁ t₂ t₃ : Timers} {added₁ added₂ : List ℕ} (h : t₁.Evolves t₂ added₁)
    (h' : t₂.Evolves t₃ added₂) (hold : ∀ a ∈ added₁, a < t₂.allocated) :
    t₁.Evolves t₃ (added₂ ++ added₁) where
  head := h'.head.append (h.head.congr fun a ha ↦ h'.next (hold a ha))
  new a ha := by
    rcases List.mem_append.mp ha with ha | ha
    · exact h.allocated.trans (h'.new a ha)
    · exact h.new a ha
  newId a ha te hte hid := by
    rcases List.mem_append.mp ha with ha | ha
    · exact h.nextId.trans (h'.newId a ha te hte hid)
    · obtain ⟨te₂, hte₂⟩ := cells_of_next (h.head.allocated ha)
      have hsame := h'.back hte₂ hte hid
      rw [hsame] at hid ⊢
      exact h.newId a ha te₂ hte₂ hid
  kept a te hte := by
    rcases h.kept a te hte with hte | hte
    · exact h'.kept a te hte
    · rcases h'.kept a _ hte with hte | hte
      · exact Or.inr hte
      · exact Or.inr hte
  freed a ha hcell := h'.freed a (ha.trans_le h.allocated) (h.freed a ha hcell)
  fresh a ha hcell := by
    by_cases hmid : t₂.allocated ≤ a
    · exact List.mem_append_left _ (h'.fresh a hmid hcell)
    · apply List.mem_append_right _ (h.fresh a ha fun hnone ↦ ?_)
      exact hcell (h'.freed a (not_le.mp hmid) hnone)
  allocated := h.allocated.trans h'.allocated
  nextId := h.nextId.trans h'.nextId
  lastTime := h'.lastTime.trans h.lastTime

/-! ## The operations -/

theorem push_cells (t : Timers) (te : TimeEvent) (a : ℕ) :
    (t.push te).cells a = if a = t.allocated then some te else t.cells a :=
  Function.update_apply ..

theorem push_old (te : TimeEvent) (ha : a < t.allocated) : (t.push te).cells a = t.cells a := by
  rw [push_cells, if_neg ha.ne]

theorem push_spec (h : t.Chained l) (hid : te.id = t.timeEventNextId)
    (hnext : te.next = t.timeEventHead) :
    t.Evolves (t.push te) [t.allocated] ∧ (t.push te).Chained (t.allocated :: l) := by
  have hself : (t.push te).next t.allocated = some t.timeEventHead := by
    rw [next_eq (by rw [push_cells, if_pos rfl]), hnext]
  constructor
  · refine ⟨.cons hself (.nil _), fun a ha ↦ (List.mem_singleton.mp ha).ge,
      fun a ha te' hte' _ ↦ ?_, fun a te' hte' ↦ Or.inl ?_,
      fun a ha hnone ↦ (push_old te ha).trans hnone, fun a ha hcell ↦ ?_, Nat.le_succ _,
      Int.le_add_one le_rfl, rfl⟩
    · rw [List.mem_singleton.mp ha, push_cells, if_pos rfl] at hte'
      rw [← Option.some.inj hte', hid]
    · rw [push_old te (h.fresh a (by rw [hte']; nofun)), hte']
    · by_contra hne
      rw [List.mem_singleton] at hne
      rw [push_cells, if_neg hne] at hcell
      exact absurd (h.fresh a hcell) (not_lt.mpr ha)
  · have hlinked : ∀ a ∈ l, (t.push te).next a = t.next a := fun a ha ↦
      congrArg (Option.map TimeEvent.next) (push_old te (h.lt_allocated ha))
    refine ⟨.cons hself (h.linked.congr hlinked), fun a ha ↦ ?_, Int.le_add_one h.nonneg,
      fun a ha te' hte' hlive ↦ ?_, List.pairwise_cons.mpr ⟨?_, ?_⟩⟩
    · rw [push_cells] at ha
      change a < t.allocated + 1
      split_ifs at ha with hlast
      · omega
      · exact (h.fresh a ha).trans (Nat.lt_succ_self _)
    · rw [push_cells] at hte'
      change 0 ≤ te'.id ∧ te'.id < t.timeEventNextId + 1
      split_ifs at hte' with hlast
      · obtain rfl := Option.some.inj hte'
        have hnonneg := h.nonneg
        omega
      · have hmem : a ∈ l := (List.mem_cons.mp ha).resolve_left hlast
        have hrange := h.ids a hmem te' hte' hlive
        omega
    · intro b hb te₁ te₂ hte₁ hte₂ _ hlive
      rw [push_cells, if_pos rfl] at hte₁
      rw [push_old te (h.lt_allocated hb)] at hte₂
      rw [← Option.some.inj hte₁, hid]
      exact (h.ids b hb te₂ hte₂ hlive).2
    · refine h.decreasing.imp_of_mem fun {a b} ha hb hab te₁ te₂ hte₁ hte₂ ↦ ?_
      rw [push_old te (h.lt_allocated ha)] at hte₁
      rw [push_old te (h.lt_allocated hb)] at hte₂
      exact hab te₁ te₂ hte₁ hte₂

theorem aeCreateTimeEvent_spec (h : t.Chained l) (now : ℤ × ℤ) (milliseconds : ℤ)
    (proc clientData : ℕ) (finalizerProc : Option ℕ) (oom : Bool) :
    ∃ added, t.Evolves (t.aeCreateTimeEvent now milliseconds proc clientData finalizerProc oom).2
        added ∧
      (t.aeCreateTimeEvent now milliseconds proc clientData finalizerProc oom).2.Chained
        (added ++ l) := by
  unfold aeCreateTimeEvent
  split_ifs with hoom
  · have hmore : t.timeEventNextId ≤ t.timeEventNextId + 1 := Int.le_add_one le_rfl
    refine ⟨[], ⟨.nil _, nofun, nofun, fun _ _ h ↦ Or.inl h, fun _ _ h ↦ h,
        fun a ha hcell ↦ absurd (h.fresh a hcell) (not_lt.mpr ha), le_refl _, hmore, rfl⟩,
      h.linked, h.fresh, h.nonneg.trans hmore, fun a ha te hte hid ↦ ?_, h.decreasing⟩
    obtain ⟨hlow, hhigh⟩ := h.ids a ha te hte hid
    exact ⟨hlow, hhigh.trans_le hmore⟩
  · exact ⟨_, push_spec h rfl rfl⟩

/-- A cell of the chain is marked. -/
theorem mark_spec (h : t.Chained l) (ha : t.cells a = some te) :
    t.Evolves (t.set a { te with id := aeDeletedEventId }) [] ∧
      (t.set a { te with id := aeDeletedEventId }).Chained l := by
  generalize hte : ({ te with id := aeDeletedEventId } : TimeEvent) = te'
  have hcell : ∀ b, (t.set a te').cells b = if b = a then some te' else t.cells b :=
    fun b ↦ Function.update_apply ..
  have hnext : ∀ b, (t.set a te').next b = t.next b := by
    intro b
    rw [next, next, hcell]
    split_ifs with hb
    · rw [hb, ha, ← hte]
      rfl
    · rfl
  have hlive : ∀ b te₁, (t.set a te').cells b = some te₁ → te₁.id ≠ -1 →
      t.cells b = some te₁ := by
    intro b te₁ hte₁ hid
    rw [hcell] at hte₁
    split_ifs at hte₁ with hb
    · rw [← Option.some.inj hte₁, ← hte] at hid
      exact absurd rfl hid
    · exact hte₁
  constructor
  · refine ⟨.nil _, nofun, nofun, fun b te₁ hte₁ ↦ ?_, fun b _ hnone ↦ ?_, fun b hb hcell' ↦ ?_,
      le_refl _, le_refl _, rfl⟩
    · rw [hcell]
      split_ifs with hb
      · obtain rfl := Option.some.inj (ha.symm.trans (hb ▸ hte₁))
        exact Or.inr (congrArg some hte.symm)
      · exact Or.inl hte₁
    · rw [hcell]
      split_ifs with hb
      · rw [hb, ha] at hnone
        cases hnone
      · exact hnone
    · rw [hcell] at hcell'
      split_ifs at hcell' with hba
      · exact absurd (h.fresh a (by rw [ha]; nofun)) (not_lt.mpr (hba ▸ hb))
      · exact absurd (h.fresh b hcell') (not_lt.mpr hb)
  · refine ⟨h.linked.congr fun b _ ↦ hnext b, fun b hb ↦ ?_, h.nonneg, fun b hb te₁ hte₁ hid ↦ ?_,
      h.decreasing.imp fun {b c} hbc te₁ te₂ hte₁ hte₂ hid₁ hid₂ ↦ ?_⟩
    · apply h.fresh b
      rw [hcell] at hb
      split_ifs at hb with hba
      · rw [hba, ha]
        nofun
      · exact hb
    · exact h.ids b hb te₁ (hlive b te₁ hte₁ hid) hid
    · exact hbc te₁ te₂ (hlive b te₁ hte₁ hid₁) (hlive c te₂ hte₂ hid₂) hid₁ hid₂

/-- The search meets the cells of the chain in order. -/
theorem searchId_spec (t : Timers) (id : ℤ) {p : Option ℕ} (h : Linked t.next p l none) {fuel : ℕ}
    (hfuel : l.length ≤ fuel) :
    t.searchId id fuel p = some (l.find? fun a ↦ (t.cells a).any fun te ↦ te.id == id) := by
  induction l generalizing p fuel with
  | nil =>
      obtain rfl := Linked.nil_iff.mp h
      cases fuel <;> rfl
  | cons a l ih =>
      obtain ⟨rfl, r, hr, hl⟩ := Linked.cons_iff.mp h
      obtain ⟨te, hte⟩ := cells_of_next (by rw [hr]; nofun)
      have hnext : te.next = r := Option.some.inj ((next_eq hte).symm.trans hr)
      obtain ⟨fuel, rfl⟩ : ∃ n, fuel = n + 1 := ⟨fuel - 1, by
        rw [List.length_cons] at hfuel
        omega⟩
      rw [searchId, hte, List.find?_cons, hte, Option.any_some]
      by_cases hid : te.id = id
      · simp only [hid, beq_self_eq_true, if_true]
      · simp only [if_neg hid, beq_eq_false_iff_ne.mpr hid, hnext]
        exact ih hl (Nat.le_of_succ_le_succ hfuel)

/-- An event of the chain has the identifier. -/
def Live (t : Timers) (l : List ℕ) (id : ℤ) : Prop :=
  ∃ a ∈ l, ∃ te, t.cells a = some te ∧ te.id = id

/-- Identifiers are not used twice. -/
theorem Chained.unique (h : t.Chained l) {a b : ℕ} (ha : a ∈ l) (hb : b ∈ l) {te te' : TimeEvent}
    (hte : t.cells a = some te) (hte' : t.cells b = some te') (hid : te.id = te'.id)
    (hlive : te.id ≠ -1) : a = b := by
  by_contra hne
  have hsymm : Std.Symm fun a b ↦ ∀ te te', t.cells a = some te → t.cells b = some te' →
      te.id ≠ -1 → te'.id ≠ -1 → te.id ≠ te'.id :=
    ⟨fun _ _ hab te te' hte hte' hid hid' heq ↦ hab te' te hte' hte hid' hid heq.symm⟩
  have hdistinct := h.decreasing.imp fun {a b} hab te te' hte hte' hid hid' ↦
    (hab te te' hte hte' hid hid').ne'
  exact hdistinct.forall ha hb hne te te' hte hte' hlive (hid ▸ hlive) hid

theorem aeDeleteTimeEvent_nextId {id : ℤ} {r : Status × Timers}
    (h : t.aeDeleteTimeEvent id = some r) : r.2.timeEventNextId = t.timeEventNextId := by
  unfold aeDeleteTimeEvent at h
  split at h
  · cases h
  · obtain rfl := Option.some.inj h
    rfl
  · obtain ⟨te, -, rfl⟩ := Option.map_eq_some_iff.mp h
    rfl

theorem aeDeleteTimeEvent_spec (h : t.Chained l) (id : ℤ) :
    ∃ r, t.aeDeleteTimeEvent id = some r ∧ t.Evolves r.2 [] ∧ r.2.Chained l ∧
      (r.1 = .ok ↔ t.Live l id) ∧ (id ≠ -1 → ¬r.2.Live l id) ∧
      ∀ b te, t.cells b = some te → te.id ≠ id → r.2.cells b = some te := by
  unfold aeDeleteTimeEvent
  rw [searchId_spec t id h.linked h.length_le]
  cases hfind : l.find? fun a ↦ (t.cells a).any fun te ↦ te.id == id with
  | none =>
      have hnot : ¬t.Live l id := by
        rintro ⟨a, ha, te, hte, hid⟩
        have hnot := List.find?_eq_none.mp hfind a ha
        rw [hte, Option.any_some, hid, beq_self_eq_true] at hnot
        exact hnot rfl
      exact ⟨(.err, t), rfl, .refl h, h, iff_of_false nofun hnot, fun _ ↦ hnot, fun _ _ h _ ↦ h⟩
  | some a =>
      have hmem := List.mem_of_find?_eq_some hfind
      have hid := List.find?_some hfind
      obtain ⟨te, hte⟩ := h.cell hmem
      rw [hte, Option.any_some, beq_iff_eq] at hid
      obtain ⟨hevolves, hchained⟩ := mark_spec h hte
      refine ⟨_, congrArg (Option.map _) hte, hevolves, hchained,
        iff_of_true rfl ⟨a, hmem, te, hte, hid⟩, ?_, fun b te' hte' hne ↦ ?_⟩
      · rintro hlive ⟨b, hb, te', hte', hid'⟩
        obtain ⟨te₀, hte₀⟩ := h.cell hb
        have hsame := hevolves.back hte₀ hte' (hid'.trans_ne hlive)
        have hba := h.unique hb hmem hte₀ hte (by rw [← hsame, hid', hid])
          (hsame ▸ hid'.trans_ne hlive)
        rw [hba] at hte'
        have hmarked : (t.set a { te with id := aeDeletedEventId }).cells a =
            some { te with id := aeDeletedEventId } := Function.update_self ..
        rw [← Option.some.inj (hmarked.symm.trans hte')] at hid'
        exact hlive hid'.symm
      · have hba : b ≠ a := by
          rintro rfl
          rw [← Option.some.inj (hte.symm.trans hte'), hid] at hne
          exact hne rfl
        exact (Function.update_of_ne hba ..).trans hte'

/-- An identifier that was used is not used again. -/
theorem Evolves.not_live (h : t.Evolves t' added) (hchained : t.Chained l) {id : ℤ}
    (hold : id < t.timeEventNextId) (hlive : id ≠ -1) (hnot : ¬t.Live l id) :
    ¬t'.Live (added ++ l) id := by
  rintro ⟨a, ha, te, hte, rfl⟩
  rcases List.mem_append.mp ha with ha | ha
  · exact absurd (h.newId a ha te hte hlive) (not_le.mpr hold)
  · obtain ⟨te₀, hte₀⟩ := hchained.cell ha
    exact hnot ⟨a, ha, te₀, hte₀, by rw [h.back hte₀ hte hlive]⟩

/-! ## The nearest timer -/

theorem not_before_trans {te₁ te₂ te₃ : TimeEvent} (h : ¬before te₁ te₂)
    (h' : ¬before te₂ te₃) : ¬before te₁ te₃ := by
  unfold before at *
  omega

theorem nearer_spec (te : TimeEvent) (nearest : Option TimeEvent) :
    (nearest = some (nearer te nearest) ∨ nearer te nearest = te) ∧
      (∀ te', nearest = some te' → ¬before te' (nearer te nearest)) ∧
      ¬before te (nearer te nearest) := by
  have hself : ∀ te, ¬before te te := by
    intro te
    unfold before
    omega
  cases nearest with
  | none => exact ⟨Or.inr rfl, nofun, hself te⟩
  | some best =>
      rw [nearer]
      split_ifs with hbefore
      · refine ⟨Or.inr rfl, fun te' hte' ↦ ?_, hself te⟩
        rw [← Option.some.inj hte']
        unfold before at *
        omega
      · refine ⟨Or.inl rfl, fun te' hte' ↦ ?_, hbefore⟩
        exact Option.some.inj hte' ▸ hself best

/-- The search ends at an event that none comes before. -/
theorem searchNearest_spec (t : Timers) {p : Option ℕ} (h : Linked t.next p l none) {fuel : ℕ}
    (hfuel : l.length ≤ fuel) (nearest : Option TimeEvent) :
    ∃ r, t.searchNearest fuel p nearest = some r ∧ (r = none ↔ l = [] ∧ nearest = none) ∧
      ∀ te, r = some te → (nearest = some te ∨ ∃ a ∈ l, t.cells a = some te) ∧
        (∀ te', nearest = some te' → ¬before te' te) ∧
        ∀ a ∈ l, ∀ te', t.cells a = some te' → ¬before te' te := by
  induction l generalizing p fuel nearest with
  | nil =>
      obtain rfl := Linked.nil_iff.mp h
      refine ⟨nearest, by cases fuel <;> rfl, ⟨fun h ↦ ⟨rfl, h⟩, And.right⟩, fun te hte ↦
        ⟨Or.inl hte, fun te' hte' ↦ ?_, nofun⟩⟩
      obtain rfl := Option.some.inj (hte.symm.trans hte')
      unfold before
      omega
  | cons a l ih =>
      obtain ⟨rfl, r, hr, hl⟩ := Linked.cons_iff.mp h
      obtain ⟨te, hte⟩ := cells_of_next (by rw [hr]; nofun)
      have hnext : te.next = r := Option.some.inj ((next_eq hte).symm.trans hr)
      obtain ⟨fuel, rfl⟩ : ∃ n, fuel = n + 1 := ⟨fuel - 1, by
        rw [List.length_cons] at hfuel
        omega⟩
      obtain ⟨hfrom, hnear, hself⟩ := nearer_spec te nearest
      obtain ⟨res, hres, hnone, hsome⟩ :=
        ih hl (Nat.le_of_succ_le_succ hfuel) (some (nearer te nearest))
      have hrun : t.searchNearest (fuel + 1) (some a) nearest = some res := by
        simp only [searchNearest, hte, hnext]
        exact hres
      have hres' : res ≠ none := fun h ↦ nomatch (hnone.mp h).2
      refine ⟨res, hrun, iff_of_false hres' nofun, fun te' hte' ↦ ?_⟩
      obtain ⟨hwhere, hbest, hrest⟩ := hsome te' hte'
      have hbest := hbest _ rfl
      refine ⟨?_, fun te₂ hte₂ ↦ not_before_trans (hnear te₂ hte₂) hbest, fun b hb te₂ hte₂ ↦ ?_⟩
      · rcases hwhere with hsame | ⟨b, hb, hteb⟩
        · rw [← Option.some.inj hsame]
          rcases hfrom with hold | hnew
          · exact Or.inl hold
          · exact Or.inr ⟨a, List.mem_cons_self, by rw [hnew, hte]⟩
        · exact Or.inr ⟨b, List.mem_cons_of_mem _ hb, hteb⟩
      · rcases List.mem_cons.mp hb with rfl | hb
        · rw [← Option.some.inj (hte.symm.trans hte₂)]
          exact not_before_trans hself hbest
        · exact hrest b hb te₂ hte₂

/-- The clock went back: every event of the chain is due at second 0. -/
theorem resetAll_spec {p : Option ℕ} (h : Linked t.next p l none) {fuel : ℕ}
    (hfuel : l.length ≤ fuel) :
    ∃ cells, resetAll fuel p t = some { t with cells := cells } ∧
      ∀ a, cells a = if a ∈ l then (t.cells a).map fun te ↦ { te with when_sec := 0 }
        else t.cells a := by
  induction l generalizing t p fuel with
  | nil =>
      obtain rfl := Linked.nil_iff.mp h
      exact ⟨t.cells, by cases fuel <;> rfl, fun a ↦ (if_neg List.not_mem_nil).symm⟩
  | cons a l ih =>
      obtain ⟨rfl, r, hr, hl⟩ := Linked.cons_iff.mp h
      obtain ⟨te, hte⟩ := cells_of_next (by rw [hr]; nofun)
      obtain rfl : te.next = r := Option.some.inj ((next_eq hte).symm.trans hr)
      obtain ⟨fuel, rfl⟩ : ∃ n, fuel = n + 1 := ⟨fuel - 1, by
        rw [List.length_cons] at hfuel
        omega⟩
      have ha : a ∉ l := (List.nodup_cons.mp h.nodup).1
      have hcell : ∀ b, (t.set a { te with when_sec := 0 }).cells b =
          if b = a then some { te with when_sec := 0 } else t.cells b :=
        fun b ↦ Function.update_apply ..
      have hl' : Linked (t.set a { te with when_sec := 0 }).next te.next l none := by
        refine hl.congr fun b hb ↦ ?_
        have hba : b ≠ a := fun heq ↦ ha (heq ▸ hb)
        rw [next, next, hcell, if_neg hba]
      obtain ⟨cells, hreset, hcells⟩ := ih hl' (Nat.le_of_succ_le_succ hfuel)
      refine ⟨cells, ?_, fun b ↦ ?_⟩
      · simp only [resetAll, hte]
        exact hreset
      · rw [hcells, hcell]
        by_cases hba : b = a
        · rw [hba, if_neg ha, if_pos rfl, if_pos List.mem_cons_self, hte]
          rfl
        · simp only [hba, List.mem_cons, false_or, if_false]

end Timers

end Ae

end MuxHiredis
