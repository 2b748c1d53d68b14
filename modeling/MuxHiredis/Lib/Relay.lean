import Mathlib.Data.List.Basic
import Mathlib.Tactic

/-!
# A queue to which the record last used goes back

Records wait in a queue for items that arrive in rounds.  An item is taken by
the first record; when none waits, the record that took the item before takes it
too, unless the item is a final one, which ends the relay.  At the end of a round
the record that is held goes to the end of the queue, and the next round starts
with an idle record.
-/

namespace Relay

variable {α ρ : Type*}

section Rounds

variable (final : ρ → Bool)

/-- The records that take the items of a round, with the record held and the
queue after it when the relay goes on. -/
def round : α → List α → List ρ → List α × Option (α × List α)
  | held, queue, [] => ([], some (held, queue))
  | _, a :: queue, _ :: rs =>
      let p := round a queue rs
      (a :: p.1, p.2)
  | held, [], r :: rs =>
      if final r then ([], none)
      else
        let p := round held [] rs
        (held :: p.1, p.2)

/-- The records that take the items of all rounds, and whether the relay goes on
to the end. -/
def rounds (idle : α) : α → List α → List (List ρ) → List α × Bool
  | _, _, [] => ([], true)
  | held, queue, t :: ts =>
      match round final held queue t with
      | (taken, none) => (taken, false)
      | (taken, some (last, queue)) =>
          let p := rounds idle idle (queue ++ [last]) ts
          (taken ++ p.1, p.2)

end Rounds

/-- The record that is held after `n` items. -/
def lastHeld : α → List α → ℕ → α
  | held, _, 0 => held
  | held, [], _ + 1 => held
  | _, a :: queue, n + 1 => lastHeld a queue n

/-- After `n` items that the first records wait for, all items are taken by
right records. -/
structure Right (right : α → Prop) (n : ℕ) (p : List α × Bool) : Prop where
  lasts : p.2 = true
  taken : ∀ a ∈ p.1.drop n, right a

/-- The rounds come out right: `pending` are the first records of `waiting` ones,
of which the others are right.  No final item arrives when no record waits, and
either each round ends on a right record, or what arrives after it is no more
than the records that wait then. -/
def Keeps (right : α → Prop) (final : ρ → Bool) (idle : α) :
    α → List α → ℕ → List (List ρ) → Prop
  | _, _, _, [] => True
  | held, pending, waiting, t :: ts =>
      (∀ r ∈ t.drop waiting, final r = false) ∧
        ((∀ a ∈ (held :: pending)[t.length]?, right a) ∧
            Keeps right final idle idle (pending.drop t.length) (waiting - t.length + 1) ts ∨
          ts.flatten.length ≤ waiting - t.length)

variable {right : α → Prop} {final : ρ → Bool} {idle : α}

/-! ## One round -/

theorem lastHeld_nil (held : α) (n : ℕ) : lastHeld held [] n = held := by
  cases n <;> rfl

theorem round_goes_on {held : α} {queue : List α} {t : List ρ}
    (h : ∀ r ∈ t.drop queue.length, final r = false) :
    round final held queue t =
      (queue.take t.length ++
          List.replicate (t.length - queue.length) (lastHeld held queue t.length),
        some (lastHeld held queue t.length, queue.drop t.length)) := by
  induction t generalizing held queue with
  | nil => simp [round, lastHeld]
  | cons r t ih =>
      cases queue with
      | nil =>
          have hr : final r = false := h r (by simp)
          have hrest : round final held [] t = _ := ih fun r' hr' ↦ h r' (by simp_all)
          simp only [round, hr, Bool.false_eq_true, if_false, hrest, lastHeld_nil]
          simp [List.replicate_succ]
      | cons a queue =>
          have hrest : round final a queue t = _ := ih fun r' hr' ↦ h r' (by simpa using hr')
          simp only [round, hrest]
          simp [lastHeld]

theorem length_round {held last : α} {queue queue' taken : List α} {t : List ρ}
    (h : round final held queue t = (taken, some (last, queue'))) : taken.length = t.length := by
  induction t generalizing held queue taken with
  | nil =>
      cases h
      rfl
  | cons r t ih =>
      cases queue with
      | nil =>
          cases hr : final r with
          | true => simp [round, hr] at h
          | false =>
              simp only [round, hr, Bool.false_eq_true, if_false, Prod.mk.injEq] at h
              rw [← h.1, List.length_cons, ih (Prod.ext rfl h.2), List.length_cons]
      | cons a queue =>
          simp only [round, Prod.mk.injEq] at h
          rw [← h.1, List.length_cons, ih (Prod.ext rfl h.2), List.length_cons]

theorem round_ends {held : α} {queue : List α} {t : List ρ}
    (h : ¬∀ r ∈ t.drop queue.length, final r = false) :
    (round final held queue t).2 = none := by
  induction t generalizing held queue with
  | nil => simp at h
  | cons r t ih =>
      cases queue with
      | nil =>
          cases hr : final r with
          | true => simp [round, hr]
          | false =>
              simp only [round, hr, Bool.false_eq_true, if_false]
              exact ih fun hall ↦ h (by simpa [hr] using hall)
      | cons a queue =>
          simp only [round]
          exact ih fun hall ↦ h (by simpa using hall)

theorem right_lastHeld {held : α} {queue : List α} (hheld : right held)
    (h : ∀ a ∈ queue, right a) (n : ℕ) : right (lastHeld held queue n) := by
  induction queue generalizing held n with
  | nil => exact (lastHeld_nil held n).symm ▸ hheld
  | cons a queue ih =>
      cases n with
      | zero => exact hheld
      | succ n => exact ih (h a (by simp)) (fun b hb ↦ h b (by simp [hb])) n

/-- The record held after a round is right exactly when the pending one that took
its last item is. -/
theorem right_lastHeld_iff {held : α} {pending others : List α} (hne : others ≠ [])
    (h : ∀ a ∈ others, right a) (n : ℕ) :
    right (lastHeld held (pending ++ others) n) ↔
      ∀ a ∈ (held :: pending)[n]?, right a := by
  induction pending generalizing held n with
  | nil =>
      cases n with
      | zero => simp [lastHeld]
      | succ n =>
          obtain ⟨b, others, rfl⟩ := List.exists_cons_of_ne_nil hne
          have hlast : right (lastHeld b others n) :=
            right_lastHeld (h b (by simp)) (fun a ha ↦ h a (by simp [ha])) n
          simp [lastHeld, hlast]
  | cons b pending ih =>
      cases n with
      | zero => simp [lastHeld]
      | succ n =>
          have hrest : right (lastHeld b (pending ++ others) n) ↔ _ := ih n
          simpa [lastHeld] using hrest

/-! ## All rounds -/

theorem rounds_goes_on {held last : α} {queue : List α} {t : List ρ} {ts : List (List ρ)}
    (h : ∀ r ∈ t.drop queue.length, final r = false)
    (hlast : lastHeld held queue t.length = last) :
    rounds final idle held queue (t :: ts) =
      (queue.take t.length ++ List.replicate (t.length - queue.length) last ++
          (rounds final idle idle (queue.drop t.length ++ [last]) ts).1,
        (rounds final idle idle (queue.drop t.length ++ [last]) ts).2) := by
  rw [rounds, round_goes_on h, hlast]

/-- A round of no more items than there are good records. -/
theorem rounds_cons_of_le (final : ρ → Bool) (idle held : α) {good : List α} (rest : List α)
    {t : List ρ} (ts : List (List ρ)) (h : t.length ≤ good.length) :
    ∃ last, rounds final idle held (good ++ rest) (t :: ts) =
      (good.take t.length ++
          (rounds final idle idle (good.drop t.length ++ (rest ++ [last])) ts).1,
        (rounds final idle idle (good.drop t.length ++ (rest ++ [last])) ts).2) := by
  have hlen : t.length ≤ (good ++ rest).length := by
    rw [List.length_append]
    omega
  have hgoes : ∀ r ∈ t.drop (good ++ rest).length, final r = false := by
    rw [List.drop_eq_nil_of_le hlen]
    simp
  refine ⟨lastHeld held (good ++ rest) t.length, ?_⟩
  rw [rounds_goes_on hgoes rfl, Nat.sub_eq_zero_of_le hlen, List.replicate_zero, List.append_nil,
    List.take_append_of_le_length h, List.drop_append_of_le_length h, List.append_assoc]

theorem not_right_of_ends {held : α} {queue : List α} {t : List ρ} {ts : List (List ρ)}
    (h : ¬∀ r ∈ t.drop queue.length, final r = false) {n : ℕ} :
    ¬Right right n (rounds final idle held queue (t :: ts)) := by
  intro hright
  have hlasts := hright.lasts
  have hnone : (round final held queue t).2 = none := round_ends h
  rw [rounds] at hlasts
  generalize round final held queue t = p at hlasts hnone
  obtain ⟨taken, rest⟩ := p
  obtain rfl : rest = none := hnone
  simp at hlasts

theorem right_append {n : ℕ} {taken : List α} {p : List α × Bool}
    (htaken : ∀ a ∈ taken.drop n, right a) (h : Right right (n - taken.length) p) :
    Right right n (taken ++ p.1, p.2) := by
  refine ⟨h.lasts, fun a ha ↦ ?_⟩
  rw [List.drop_append] at ha
  exact (List.mem_append.mp ha).elim (htaken a) (h.taken a)

theorem right_of_append {n : ℕ} {taken : List α} {p : List α × Bool}
    (h : Right right n (taken ++ p.1, p.2)) :
    (∀ a ∈ taken.drop n, right a) ∧ Right right (n - taken.length) p := by
  have htaken := h.taken
  simp only [List.drop_append] at htaken
  exact ⟨fun a ha ↦ htaken a (List.mem_append_left _ ha), h.lasts,
    fun a ha ↦ htaken a (List.mem_append_right _ ha)⟩

theorem drop_drop_sub_subset (l : List α) (m n : ℕ) :
    (l.drop m).drop (n - m) ⊆ l.drop n := by
  rw [List.drop_drop]
  intro a ha
  rw [show m + (n - m) = n + (m + (n - m) - n) by omega, ← List.drop_drop] at ha
  exact List.mem_of_mem_drop ha

/-- While no more arrives than there are good records, all is right. -/
theorem right_of_within {held : α} {good rest : List α} {ts : List (List ρ)} {n : ℕ}
    (hgood : ∀ a ∈ good.drop n, right a) (h : ts.flatten.length ≤ good.length) :
    Right right n (rounds final idle held (good ++ rest) ts) := by
  induction ts generalizing held good rest n with
  | nil => exact ⟨rfl, by simp [rounds]⟩
  | cons t ts ih =>
      rw [List.flatten_cons, List.length_append] at h
      have hle : t.length ≤ good.length := by omega
      obtain ⟨last, hround⟩ := rounds_cons_of_le final idle held rest ts hle
      rw [hround]
      refine right_append (fun a ha ↦ ?_) (ih (fun a ha ↦ ?_) ?_)
      · rw [List.drop_take] at ha
        exact hgood a (List.mem_of_mem_take ha)
      · rw [List.length_take_of_le hle] at ha
        exact hgood a (drop_drop_sub_subset good t.length n ha)
      · rw [List.length_drop]
        omega

/-- The first record after the good ones takes what arrives after that. -/
theorem not_right_of_beyond {held bad : α} {good rest : List α} {ts : List (List ρ)} {n : ℕ}
    (hbad : ¬right bad) (hn : n ≤ good.length) (h : good.length < ts.flatten.length) :
    ¬Right right n (rounds final idle held (good ++ bad :: rest) ts) := by
  induction ts generalizing held good rest n with
  | nil => simp at h
  | cons t ts ih =>
      rw [List.flatten_cons, List.length_append] at h
      by_cases hle : t.length ≤ good.length
      · obtain ⟨last, hround⟩ := rounds_cons_of_le final idle held (bad :: rest) ts hle
        rw [hround]
        intro hright
        have hrest := (right_of_append hright).2
        rw [List.length_take_of_le hle] at hrest
        exact ih (by rw [List.length_drop]; omega) (by rw [List.length_drop]; omega) hrest
      · by_cases hgoes : ∀ r ∈ t.drop (good ++ bad :: rest).length, final r = false
        · rw [rounds_goes_on hgoes rfl]
          intro hright
          -- The bad record is among those that take the items of this round.
          have hget : ((good ++ bad :: rest).take t.length)[good.length]? = some bad := by
            rw [List.getElem?_take_of_lt (by omega)]
            simp
          have hmem : bad ∈ ((good ++ bad :: rest).take t.length).drop n := by
            refine List.mem_iff_getElem?.mpr ⟨good.length - n, ?_⟩
            rw [List.getElem?_drop, show n + (good.length - n) = good.length by omega, hget]
          refine hbad ((right_of_append hright).1 bad ?_)
          rw [List.drop_append]
          exact List.mem_append_left _ hmem
        · exact not_right_of_ends hgoes

/-- The items of a round are taken as they should be, so that all comes out right
when the rounds after it do. -/
theorem right_rounds_cons_iff {held last : α} {pending others : List α} {t : List ρ}
    (hothers : ∀ a ∈ others, right a)
    (hgoes : ∀ r ∈ t.drop (pending ++ others).length, final r = false)
    (hlast : lastHeld held (pending ++ others) t.length = last)
    (htaken : right last ∨ t.length ≤ pending.length) (ts : List (List ρ)) :
    Right right pending.length (rounds final idle held (pending ++ others) (t :: ts)) ↔
      Right right (pending.length - t.length)
        (rounds final idle idle ((pending ++ others).drop t.length ++ [last]) ts) := by
  have hlen : ((pending ++ others).take t.length ++
      List.replicate (t.length - (pending ++ others).length) last).length = t.length := by
    rw [List.length_append, List.length_take, List.length_replicate]
    omega
  rw [rounds_goes_on hgoes hlast]
  constructor
  · intro h
    have hrest := (right_of_append h).2
    rwa [hlen] at hrest
  · intro h
    refine right_append (fun a ha ↦ ?_) (hlen.symm ▸ h)
    rw [List.drop_append] at ha
    rcases List.mem_append.mp ha with ha | ha
    · rw [List.drop_take, List.drop_left] at ha
      exact hothers a (List.mem_of_mem_take ha)
    · have hcopy := List.mem_of_mem_drop ha
      obtain ⟨hne, rfl⟩ := List.mem_replicate.mp hcopy
      refine htaken.resolve_right fun hle ↦ hne ?_
      rw [List.length_append]
      omega

/-- Each item is taken once. -/
theorem length_rounds {held : α} {queue : List α} {ts : List (List ρ)}
    (h : (rounds final idle held queue ts).2 = true) :
    (rounds final idle held queue ts).1.length = ts.flatten.length := by
  induction ts generalizing held queue with
  | nil => rfl
  | cons t ts ih =>
      by_cases hgoes : ∀ r ∈ t.drop queue.length, final r = false
      · rw [rounds_goes_on hgoes rfl] at h ⊢
        simp only [List.length_append, List.length_take, List.length_replicate, List.flatten_cons,
          ih h]
        omega
      · have hright : Right (fun _ ↦ True) 0 (rounds final idle held queue (t :: ts)) :=
          ⟨h, fun _ _ ↦ trivial⟩
        exact (not_right_of_ends hgoes hright).elim

/-- The first records of the queue take the first items. -/
theorem take_rounds {held : α} {good rest : List α} {ts : List (List ρ)}
    (h : (rounds final idle held (good ++ rest) ts).2 = true) :
    (rounds final idle held (good ++ rest) ts).1.take good.length =
      good.take ts.flatten.length := by
  induction ts generalizing held good rest with
  | nil => simp [rounds]
  | cons t ts ih =>
      by_cases hle : t.length ≤ good.length
      · obtain ⟨last, hround⟩ := rounds_cons_of_le final idle held rest ts hle
        rw [hround] at h ⊢
        have hrest := ih h
        rw [List.length_drop] at hrest
        rw [List.take_append, List.length_take_of_le hle, hrest, List.take_take,
          Nat.min_eq_right hle, List.flatten_cons, List.length_append, List.take_add]
      · by_cases hgoes : ∀ r ∈ t.drop (good ++ rest).length, final r = false
        · have hfront : good.length ≤ ((good ++ rest).take t.length).length := by
            rw [List.length_take, List.length_append]
            omega
          rw [rounds_goes_on hgoes rfl]
          show List.take good.length _ = _
          rw [List.append_assoc, List.take_append_of_le_length hfront, List.take_take,
            Nat.min_eq_left (by omega), List.take_left, List.flatten_cons, List.length_append,
            List.take_of_length_le (by omega)]
        · have hright : Right (fun _ ↦ True) 0 (rounds final idle held (good ++ rest) (t :: ts)) :=
            ⟨h, fun _ _ ↦ trivial⟩
          exact (not_right_of_ends hgoes hright).elim

/-- The rounds come out right exactly when they keep to the condition. -/
theorem right_rounds_iff {held : α} {pending others : List α} (hne : others ≠ [])
    (hothers : ∀ a ∈ others, right a) (ts : List (List ρ)) :
    Right right pending.length (rounds final idle held (pending ++ others) ts) ↔
      Keeps right final idle held pending (pending ++ others).length ts := by
  induction ts generalizing held pending others with
  | nil => exact ⟨fun _ ↦ trivial, fun _ ↦ ⟨rfl, by simp [rounds]⟩⟩
  | cons t ts ih =>
      rw [Keeps]
      by_cases hgoes : ∀ r ∈ t.drop (pending ++ others).length, final r = false
      · have hlast : right (lastHeld held (pending ++ others) t.length) ↔ _ :=
          right_lastHeld_iff hne hothers t.length
        have hgood : ∀ a ∈ ((pending ++ others).drop t.length).drop
            (pending.length - t.length), right a := by
          intro a ha
          have hmem := drop_drop_sub_subset (pending ++ others) t.length pending.length ha
          rw [List.drop_left] at hmem
          exact hothers a hmem
        have htaken : right (lastHeld held (pending ++ others) t.length) ∨
            t.length ≤ pending.length := by
          by_cases hle : t.length ≤ pending.length
          · exact Or.inr hle
          · refine Or.inl (hlast.mpr ?_)
            rw [List.getElem?_eq_none (by rw [List.length_cons]; omega)]
            simp
        generalize hl : lastHeld held (pending ++ others) t.length = last at hlast htaken
        have hstep (hr : right last) : Right right (pending.length - t.length)
              (rounds final idle idle ((pending ++ others).drop t.length ++ [last]) ts) ↔
            Keeps right final idle idle (pending.drop t.length)
              ((pending ++ others).length - t.length + 1) ts := by
          have h : Right right (pending.drop t.length).length (rounds final idle idle
              (pending.drop t.length ++ (others.drop (t.length - pending.length) ++ [last])) ts) ↔
              _ := ih (by simp) (by
              intro a ha
              rcases List.mem_append.mp ha with ha | ha
              · exact hothers a (List.mem_of_mem_drop ha)
              · exact List.mem_singleton.mp ha ▸ hr)
          rwa [List.length_drop, ← List.append_assoc, ← List.drop_append, List.length_append,
            List.length_singleton, List.length_drop] at h
        rw [right_rounds_cons_iff hothers hgoes hl htaken, and_iff_right hgoes, ← hlast]
        constructor
        · intro h
          by_cases hr : right last
          · exact Or.inl ⟨hr, (hstep hr).mp h⟩
          · refine Or.inr (not_lt.mp fun hlt ↦ ?_)
            refine not_right_of_beyond hr ?_ ?_ h
            · rw [List.length_drop, List.length_append]
              omega
            · rwa [List.length_drop]
        · rintro (⟨hr, hkeeps⟩ | hle)
          · exact (hstep hr).mpr hkeeps
          · exact right_of_within hgood (by rwa [List.length_drop])
      · exact ⟨fun h ↦ (not_right_of_ends hgoes h).elim, fun h ↦ (hgoes h.1).elim⟩

end Relay
