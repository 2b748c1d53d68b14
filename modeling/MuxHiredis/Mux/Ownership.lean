import MuxHiredis.Mux.Moves

/-!
# The owner of a reply

A reply goes from `redisProcessCallbacks` to `replyCallback`, which stores it in
the record or frees it, and from the record to the caller, which returns it.
-/

namespace MuxHiredis

/-- What became of the reply to a record's command: `got` says whether the caller
has read it, the others how often it was handed to `replyCallback`, returned by
`__xRedisCommand` and freed. -/
structure Entry where
  got : Bool
  handed : ℕ
  returned : ℕ
  discarded : ℕ
  deriving DecidableEq

/-- The account after a step, from the record and the work on it before and after
the step.  `carried` says whether `replyCallback` has a reply. -/
def Entry.next (e : Entry) (r r' : CmdRecord) (w w' : Work) (carried : Bool) : Entry where
  got := if r.pc = .reading ∧ r'.pc = .dropping then r.reply else e.got
  handed :=
    match w, w' with
    | .none, .reply reply => e.handed + reply.toNat
    | _, _ => e.handed
  returned := if r.pc ≠ .done ∧ r'.pc = .done then e.returned + e.got.toNat else e.returned
  discarded := if w = .free ∧ w' = .none then e.discarded + carried.toNat else e.discarded

/-- The callers and the event loop, with the account of every reply. -/
structure Ownership where
  share : Sharing
  carried : Bool
  ledger : ℕ → Entry

/-- The reply that the event loop has with it. -/
def LoopAt.carries (carried : Bool) : LoopAt → Bool
  | .replying _ reply _ => reply
  | .dropping _ => false
  | _ => carried

namespace Ownership

open Sharing (Action)

def step (o : Ownership) (a : Action) : Option Ownership :=
  (o.share.step a).map fun share ↦
    { share := share
      carried := share.loop.carries o.carried
      ledger := fun ci ↦ (o.ledger ci).next (o.share.records ci) (share.records ci)
        (o.share.loop.work ci) (share.loop.work ci) o.carried }

def fresh : Ownership := ⟨.fresh, false, fun _ ↦ ⟨false, 0, 0, 0⟩⟩

def machine : Machine Ownership Action := ⟨(· = fresh), step⟩

/-- A reply is returned once or freed once, and it is by the time when its caller
has returned and the event loop is done with the record. -/
def Single (o : Ownership) : Prop :=
  ∀ ci, (o.ledger ci).handed ≤ 1 ∧
    (o.ledger ci).returned + (o.ledger ci).discarded ≤ (o.ledger ci).handed ∧
    ((o.share.records ci).pc = .done → o.share.loop.work ci = .none →
      (o.ledger ci).returned + (o.ledger ci).discarded = (o.ledger ci).handed)

/-- Ordinary commands on a connection that stays up. -/
def Ordinary (o : Ownership) : Action → Prop
  | .call _ cmd => commandKind cmd = some .regular
  | .read _ => o.share.ac.replies ≠ []
  | .close _ | .free => False
  | _ => True

instance (o : Ownership) : DecidablePred o.Ordinary
  | .call _ _ => inferInstanceAs (Decidable (_ = _))
  | .read _ => inferInstanceAs (Decidable (_ ≠ _))
  | .close _ | .free => .isFalse id
  | .caller _ | .context _ | .task _ | .endCall | .loop => .isTrue trivial

/-- The caller has read `NULL` and not counted down. -/
def EmptyHanded (o : Ownership) (ci : ℕ) : Prop :=
  (o.share.records ci).pc = .dropping ∧ (o.ledger ci).got = false

instance (o : Ownership) : DecidablePred o.EmptyHanded :=
  fun _ ↦ inferInstanceAs (Decidable (_ ∧ _))

def LoopPunctual (o : Ownership) : LoopAt → Prop
  | .replying ci _ _ => ¬o.EmptyHanded ci
  | _ => True

instance (o : Ownership) : DecidablePred o.LoopPunctual
  | .replying ci _ _ => inferInstanceAs (Decidable ¬o.EmptyHanded ci)
  | .idle | .tasking _ | .issuing .. | .writing .. | .posting .. | .destroying .. | .freeing ..
  | .ending | .clearing | .dropping _ | .unlocking | .scrapping | .finished => .isTrue trivial

/-- The condition on the steps: `replyCallback` does not count down between the
caller's read of `NULL` and its count-down, and the caller does not read between
the count-down and the store of `replyCallback`. -/
def Punctual (o : Ownership) : Action → Prop
  | .caller ci =>
      (o.share.records ci).pc = .reading → ∀ reply : Bool, o.share.loop.work ci ≠ .store reply
  | .loop => o.LoopPunctual o.share.loop
  | _ => True

instance (o : Ownership) : DecidablePred o.Punctual
  | .caller _ => inferInstanceAs (Decidable (_ → ∀ _ : Bool, _ ≠ _))
  | .loop => inferInstanceAs (Decidable (o.LoopPunctual o.share.loop))
  | .call _ _ | .context _ | .task _ | .read _ | .endCall | .close _ | .free => .isTrue trivial

/-- Both together. -/
def Claimed (o : Ownership) (a : Action) : Prop := o.Ordinary a ∧ o.Punctual a

instance (o : Ownership) : DecidablePred o.Claimed := fun _ ↦ inferInstanceAs (Decidable (_ ∧ _))

end Ownership

/-! ## The account of one record -/

/-- The caller has its record in `cmd_list` and has not read the reply. -/
def CallerAt.unread : CallerAt → Bool
  | .added | .looking | .waiting | .reading => true
  | _ => false

/-- The caller has read the reply and not returned. -/
def CallerAt.bearing : CallerAt → Bool
  | .dropping | .destroying | .freeing | .searching | .withdrawing | .checking => true
  | _ => false

/-- The replies in the hands of the event loop. -/
def Work.bears : Work → ℕ
  | .reply b | .store b => b.toNat
  | .destroy | .free => 1
  | _ => 0

/-- A reply that was handed over and neither returned nor freed is with the event
loop, in the record or with the caller. -/
structure Entry.Kept (e : Entry) (v : Stand) : Prop where
  balance : e.handed = e.returned + e.discarded + v.work.bears +
    (v.record.pc.unread && v.record.reply).toNat + (v.record.pc.bearing && e.got).toNat
  once : e.handed ≤ 1
  awaited : v.record.place ≠ .called → (∀ reply, v.work ≠ .reply reply) → e.handed = 0
  reply : v.record.reply = true → v.record.place = .called
  got : e.got = true → v.record.place = .called ∧ (v.record.pc.bearing = true ∨ v.record.pc = .done)
  count : v.record.place = .queued ∨ v.record.place = .issuing ∨ v.record.place = .held →
    v.record.reference = v.record.pc.references + 1
  store : ∀ reply, v.work = .store reply → reply = true ∧ v.record.pc.unread = true ∧
    v.record.reply = false
  running : ∀ reply, v.work = .reply reply → reply = true ∧ v.record.place = .held
  registered : v.registered → v.record.place = .held ∧ ∀ reply, v.work ≠ .reply reply

namespace Entry

variable {e : Entry} {r r' : CmdRecord} {w w' : Work} {carried : Bool}

theorem next_loop (hpc : r'.pc = r.pc) : e.next r r' w w' carried =
    { e with
      handed :=
        match w, w' with
        | .none, .reply reply => e.handed + reply.toNat
        | _, _ => e.handed
      discarded :=
        if w = .free ∧ w' = .none then e.discarded + carried.toNat else e.discarded } := by
  have hreading : ¬(r.pc = .reading ∧ r'.pc = .dropping) := by
    rintro ⟨hreading, hdropping⟩
    simp [hpc, hreading] at hdropping
  have hdone : ¬(r.pc ≠ .done ∧ r'.pc = .done) := fun h ↦ h.1 (hpc ▸ h.2)
  simp only [next, if_neg hreading, if_neg hdone]

theorem next_quiet (hpc : r'.pc = r.pc) (hreply : ∀ reply, w' ≠ .reply reply) (hfree : w ≠ .free) :
    e.next r r' w w' carried = e := by
  rw [next_loop hpc, if_neg fun h ↦ hfree h.1]
  cases w' with
  | reply reply => exact absurd rfl (hreply reply)
  | _ => simp

theorem next_same (hpc : r'.pc = r.pc) : e.next r r' w w carried = e := by
  rw [next_loop hpc]
  cases w <;> simp

theorem next_caller : e.next r r' w w carried =
    { e with
      got := if r.pc = .reading ∧ r'.pc = .dropping then r.reply else e.got
      returned :=
        if r.pc ≠ .done ∧ r'.pc = .done then e.returned + e.got.toNat else e.returned } := by
  cases w <;> simp [next]

end Entry

theorem Entry.Kept.untouched {e : Entry} {v : Stand} (h : e.Kept v)
    (hplace : v.record.place ≠ .called) : e.got = false ∧ v.record.reply = false := by
  constructor
  · exact Bool.eq_false_iff.mpr fun hgot ↦ hplace (h.got hgot).1
  · exact Bool.eq_false_iff.mpr fun hreply ↦ hplace (h.reply hreply)

/-- Before it is handed to `replyCallback` there is no reply to account for. -/
theorem Entry.Kept.unhanded {e : Entry} {v : Stand} (h : e.Kept v)
    (hplace : v.record.place ≠ .called) (hwork : ∀ reply, v.work ≠ .reply reply) :
    e = ⟨false, 0, 0, 0⟩ ∧ v.record.reply = false := by
  obtain ⟨hgot, hreply⟩ := h.untouched hplace
  have hzero := h.awaited hplace hwork
  have hbalance := h.balance
  obtain ⟨got, handed, returned, discarded⟩ := e
  obtain rfl : got = false := hgot
  obtain rfl : handed = 0 := hzero
  dsimp only at hbalance
  have hreturned : returned = 0 := by omega
  have hdiscarded : discarded = 0 := by omega
  exact ⟨by rw [hreturned, hdiscarded], hreply⟩

theorem Entry.kept_unhanded {v : Stand} (hreply : v.record.reply = false)
    (hwork : v.work = .none ∨ v.work = .issue)
    (hcount : v.record.place = .queued ∨ v.record.place = .issuing ∨ v.record.place = .held →
      v.record.reference = v.record.pc.references + 1)
    (hregistered : v.registered → v.record.place = .held) : Entry.Kept ⟨false, 0, 0, 0⟩ v := by
  have hquiet : v.work.bears = 0 ∧ (∀ b, v.work ≠ .reply b) ∧ ∀ b, v.work ≠ .store b := by
    rcases hwork with hwork | hwork <;> simp [hwork, Work.bears]
  constructor
  · simp [hquiet.1, hreply]
  · exact Nat.zero_le 1
  · exact fun _ _ ↦ rfl
  · exact fun hr ↦ absurd hr (by simp [hreply])
  · exact fun hgot ↦ absurd hgot (by simp)
  · exact hcount
  · exact fun b hb ↦ absurd hb (hquiet.2.2 b)
  · exact fun b hb ↦ absurd hb (hquiet.2.1 b)
  · exact fun hreg ↦ ⟨hregistered hreg, hquiet.2.1⟩

theorem Entry.Kept.quiet {e : Entry} {r r' : CmdRecord} {w w' : Work} {carried : Bool} {v : Stand}
    (hpc : r'.pc = r.pc) (hreply : ∀ reply, w' ≠ .reply reply) (hfree : w ≠ .free)
    (h : e.Kept v) : (e.next r r' w w' carried).Kept v := by
  rwa [next_quiet hpc hreply hfree]

/-- `replyCallback` is past its count-down and goes on with the record. -/
theorem Entry.Kept.called {e : Entry} {v v' : Stand} (h : e.Kept v)
    (hpc : v'.record.pc = v.record.pc) (hplace : v.record.place = .called)
    (hplace' : v'.record.place = .called)
    (hwork : ∀ b, v'.work ≠ .reply b ∧ v'.work ≠ .store b)
    (hregistered : v'.registered → v.registered)
    (hbalance : e.handed = e.returned + e.discarded + v'.work.bears +
      (v'.record.pc.unread && v'.record.reply).toNat + (v'.record.pc.bearing && e.got).toNat) :
    e.Kept v' := by
  constructor
  · exact hbalance
  · exact h.once
  · exact fun hcalled ↦ absurd hplace' hcalled
  · exact fun _ ↦ hplace'
  · exact fun hgot ↦ ⟨hplace', hpc ▸ (h.got hgot).2⟩
  · exact fun hp ↦ absurd hp (by simp [hplace'])
  · exact fun b hb ↦ absurd hb (hwork b).2
  · exact fun b hb ↦ absurd hb (hwork b).1
  · exact fun hreg ↦
      absurd ((h.registered (hregistered hreg)).1.symm.trans hplace) (by simp)

/-- A caller goes on, and the record stays where it is. -/
theorem Entry.Kept.go {e : Entry} {v : Stand} (h : e.Kept v) (e' : Entry) (r : CmdRecord)
    (queued : Prop)
    (hplace : r.place = v.record.place) (hreply : r.reply = v.record.reply)
    (hhanded : e'.handed = e.handed) (hdiscarded : e'.discarded = e.discarded)
    (hbalance : e'.returned + (r.pc.unread && v.record.reply).toNat +
        (r.pc.bearing && e'.got).toNat =
      e.returned + (v.record.pc.unread && v.record.reply).toNat +
        (v.record.pc.bearing && e.got).toNat)
    (hgot : e'.got = true →
      (e.got = true ∨ v.record.reply = true) ∧ (r.pc.bearing = true ∨ r.pc = .done))
    (hcount : v.record.place ≠ .unseen → v.record.reference = v.record.pc.references + 1 →
      r.reference = r.pc.references + 1)
    (hstore : ∀ b, v.work = .store b → r.pc.unread = true) :
    e'.Kept { v with record := r, queued := queued } := by
  constructor
  · change e'.handed = e'.returned + e'.discarded + v.work.bears + (r.pc.unread && r.reply).toNat +
      (r.pc.bearing && e'.got).toNat
    have hold := h.balance
    rw [hhanded, hdiscarded, hreply]
    omega
  · exact hhanded ▸ h.once
  · intro hcalled hidle
    rw [hhanded]
    exact h.awaited (hplace ▸ hcalled) hidle
  · exact fun hr ↦ hplace.trans (h.reply (hreply ▸ hr))
  · intro hg
    obtain ⟨hfrom, hpc⟩ := hgot hg
    refine ⟨hplace.trans ?_, hpc⟩
    rcases hfrom with hfrom | hfrom
    · exact (h.got hfrom).1
    · exact h.reply hfrom
  · intro hp
    rw [hplace] at hp
    exact hcount (by rcases hp with hp | hp | hp <;> simp [hp]) (h.count hp)
  · intro b hw
    obtain ⟨hb, -, hr⟩ := h.store b hw
    exact ⟨hb, hstore b hw, hreply.trans hr⟩
  · exact fun b hw ↦ ⟨(h.running b hw).1, hplace.trans (h.running b hw).2⟩
  · exact fun hreg ↦ ⟨hplace.trans (h.registered hreg).1, (h.registered hreg).2⟩

theorem CmdRecord.stepCaller_reply (connected hasCtx queued : Bool) (r : CmdRecord) :
    (r.stepCaller connected hasCtx queued).reply = r.reply := by
  obtain ⟨cmd, reference, reply, posts, freed, stale, pc, place⟩ := r
  cases pc <;> cases hasCtx <;> cases queued <;> rfl

namespace Sharing

variable {s : Sharing} {ci : ℕ} {e : Entry}

theorem kept_caller (hplaced : (s.stand ci).Placed) (h : e.Kept (s.stand ci))
    (hconnected : s.connected = true) (habsent : (s.records ci).pc ≠ .absent)
    (hpunctual : (s.records ci).pc = .reading → ∀ reply : Bool, s.loop.work ci ≠ .store reply)
    (carried : Bool) :
    (e.next (s.records ci) ((s.records ci).stepCaller s.connected s.hasCtx (ci ∈ s.cmdList))
      (s.loop.work ci) (s.loop.work ci) carried).Kept
      { s.stand ci with
        record := (s.records ci).stepCaller s.connected s.hasCtx (ci ∈ s.cmdList)
        queued := s.queuedAfter ci } := by
  have hplace := CmdRecord.stepCaller_place s.connected s.hasCtx (ci ∈ s.cmdList) (s.records ci)
  have hreply := CmdRecord.stepCaller_reply s.connected s.hasCtx (ci ∈ s.cmdList) (s.records ci)
  have hunseen : (s.records ci).pc.early = true → (s.records ci).place = .unseen := hplaced.early
  have hgot : e.got = true → (s.records ci).place = .called ∧
    ((s.records ci).pc.bearing = true ∨ (s.records ci).pc = .done) := h.got
  have hstore : ∀ b, s.loop.work ci = .store b → b = true ∧ (s.records ci).pc.unread = true ∧
    (s.records ci).reply = false := h.store
  have hgo := fun e' ↦ h.go e'
    ((s.records ci).stepCaller s.connected s.hasCtx (ci ∈ s.cmdList)) (s.queuedAfter ci)
  simp only [stand] at hgo
  rw [Entry.next_caller]
  cases hpc : (s.records ci).pc <;> rw [hpc] at hplace hgot hstore hunseen
  case absent => exact absurd hpc habsent
  case adding =>
      have hpl := hunseen rfl
      have hwork : s.loop.work ci = .none := by
        simpa [stand, hpl, Place.Fits] using hplaced.fits
      obtain ⟨rfl, hnull⟩ := h.unhanded (by simp [stand, hpl]) (by simp [stand, hwork])
      have htwo : (s.records ci).reference = 2 := by
        have halone := hplaced.alone
        simpa [stand, hpc, CallerAt.early, CallerAt.references] using halone
      simp only [reduceCtorEq, false_and, if_false, ne_eq, not_false_eq_true, true_and,
        Bool.toNat_false, Nat.add_zero, ite_self]
      refine Entry.kept_unhanded (hreply.trans hnull) (.inl hwork) (fun _ ↦ ?_) fun hreg ↦ ?_
      · simp [CmdRecord.stepCaller, hpc, CmdRecord.goto, CmdRecord.put, CallerAt.references, htwo]
      · exact absurd ((h.registered hreg).1.symm.trans hpl) (by simp)
  case withdrawing =>
      by_cases hmem : ci ∈ s.cmdList
      · have hpl : (s.records ci).place = .queued := hplaced.queued.mp hmem
        rw [if_neg (by simp), if_pos ⟨rfl, decide_eq_true hmem⟩] at hplace
        have hwork : s.loop.work ci = .none := by
          simpa [stand, hpl, Place.Fits] using hplaced.fits
        obtain ⟨rfl, hnull⟩ := h.unhanded (by simp [stand, hpl]) (by simp [stand, hwork])
        simp only [reduceCtorEq, false_and, if_false, ne_eq, not_false_eq_true, true_and,
          Bool.toNat_false, Nat.add_zero, ite_self]
        refine Entry.kept_unhanded (hreply.trans hnull) (.inl hwork) (fun hp ↦ ?_) fun hreg ↦ ?_
        · simp [hplace] at hp
        · exact absurd ((h.registered hreg).1.symm.trans hpl) (by simp)
      · rw [if_neg (by simp), if_neg (by simp [hmem])] at hplace
        refine hgo _ hplace hreply rfl rfl ?_ ?_ ?_ ?_
        · simp [CmdRecord.stepCaller, hpc, hmem, CmdRecord.goto, CallerAt.unread, CallerAt.bearing]
        · simpa [CmdRecord.stepCaller, hpc, hmem, CmdRecord.goto, CallerAt.bearing] using Or.inl
        · simp [CmdRecord.stepCaller, hpc, hmem, CmdRecord.goto, CallerAt.references]
        · exact fun b hb ↦ absurd (hstore b hb).2.1 (by simp [CallerAt.unread])
  case created | refused | refusedFreeing =>
      rw [if_neg (by simp), if_neg (by simp)] at hplace
      have hpl := hunseen rfl
      refine hgo _ hplace hreply rfl rfl ?_ ?_ ?_ ?_
      · simp [CmdRecord.stepCaller, hpc, CmdRecord.goto, CallerAt.unread, CallerAt.bearing]
      · simp [show e.got = false by simpa [CallerAt.bearing] using hgot]
      · exact fun hne ↦ absurd hpl hne
      · exact fun b hb ↦ absurd (hstore b hb).2.1 (by simp [CallerAt.unread])
  case locked =>
      rw [if_neg (by simp), if_neg (by simp)] at hplace
      have hpl := hunseen rfl
      refine hgo _ hplace hreply rfl rfl ?_ ?_ ?_ ?_
      · simp only [CmdRecord.stepCaller, hpc]
        split <;> simp [CmdRecord.goto, CallerAt.unread, CallerAt.bearing]
      · simp [show e.got = false by simpa [CallerAt.bearing] using hgot]
      · exact fun hne ↦ absurd hpl hne
      · exact fun b hb ↦ absurd (hstore b hb).2.1 (by simp [CallerAt.unread])
  case counted =>
      rw [if_neg (by simp), if_neg (by simp)] at hplace
      have hpl := hunseen rfl
      refine hgo _ hplace hreply rfl rfl ?_ ?_ ?_ ?_
      · simp [CmdRecord.stepCaller, hpc, hconnected, CmdRecord.goto, CallerAt.unread,
          CallerAt.bearing]
      · simp [show e.got = false by simpa [CallerAt.bearing] using hgot]
      · exact fun hne ↦ absurd hpl hne
      · exact fun b hb ↦ absurd (hstore b hb).2.1 (by simp [CallerAt.unread])
  case noContext | refusedFreed =>
      rw [if_neg (by simp), if_neg (by simp)] at hplace
      have hpl := hunseen rfl
      have hnone : e.got = false := by simpa [CallerAt.bearing] using hgot
      refine hgo _ hplace hreply rfl rfl ?_ ?_ ?_ ?_
      · simp [CmdRecord.stepCaller, hpc, CmdRecord.goto, CallerAt.unread, CallerAt.bearing, hnone]
      · simp [hnone]
      · exact fun hne ↦ absurd hpl hne
      · exact fun b hb ↦ absurd (hstore b hb).2.1 (by simp [CallerAt.unread])
  case added | waiting =>
      rw [if_neg (by simp), if_neg (by simp)] at hplace
      refine hgo _ hplace hreply rfl rfl ?_ ?_ ?_ ?_
      · simp [CmdRecord.stepCaller, hpc, CmdRecord.goto, CallerAt.unread, CallerAt.bearing]
      · simp [show e.got = false by simpa [CallerAt.bearing] using hgot]
      · simp [CmdRecord.stepCaller, hpc, CmdRecord.goto, CmdRecord.touch, CallerAt.references]
      · simp [CmdRecord.stepCaller, hpc, CmdRecord.goto, CallerAt.unread]
  case looking =>
      rw [if_neg (by simp), if_neg (by simp)] at hplace
      have hunread :
          ((s.records ci).stepCaller s.connected s.hasCtx (ci ∈ s.cmdList)).pc = .reading ∨
          ((s.records ci).stepCaller s.connected s.hasCtx (ci ∈ s.cmdList)).pc = .waiting := by
        simp only [CmdRecord.stepCaller, hpc, CmdRecord.goto]
        split <;> simp
      refine hgo _ hplace hreply rfl rfl ?_ ?_ ?_ ?_
      · rcases hunread with hr | hr <;> simp [hr, hpc, CallerAt.unread, CallerAt.bearing]
      · simp [show e.got = false by simpa [CallerAt.bearing] using hgot]
      · rcases hunread with hr | hr <;> rw [hr] <;>
          simp [CmdRecord.stepCaller, hpc, CmdRecord.goto, CmdRecord.touch, CallerAt.references]
      · rcases hunread with hr | hr <;> simp [hr, CallerAt.unread]
  case reading =>
      rw [if_neg (by simp), if_neg (by simp)] at hplace
      refine hgo _ hplace hreply rfl rfl ?_ ?_ ?_ ?_
      · simp [CmdRecord.stepCaller, hpc, CmdRecord.goto, CallerAt.unread, CallerAt.bearing]
      · simpa [CmdRecord.stepCaller, hpc, CmdRecord.goto, CallerAt.bearing] using Or.inr
      · simp [CmdRecord.stepCaller, hpc, CmdRecord.goto, CmdRecord.touch, CallerAt.references]
      · exact fun b hb ↦ absurd hb (hpunctual hpc b)
  case dropping =>
      rw [if_neg (by simp), if_neg (by simp)] at hplace
      have hafter : ((s.records ci).stepCaller s.connected s.hasCtx (ci ∈ s.cmdList)).pc =
          if (s.records ci).reference - 1 ≤ 0 then .destroying else .searching := by
        simp [CmdRecord.stepCaller, hpc, CmdRecord.goto]
      refine hgo _ hplace hreply rfl rfl ?_ ?_ ?_ ?_
      · rw [hafter]
        split <;> simp [hpc, CallerAt.unread, CallerAt.bearing]
      · rw [hafter]
        split <;> simpa [hpc, CallerAt.bearing] using Or.inl
      · rw [hafter, hpc]
        simp only [CmdRecord.stepCaller, hpc, CmdRecord.goto, CmdRecord.count, CmdRecord.touch]
        split <;> simp [CallerAt.references] <;> omega
      · exact fun b hb ↦ absurd (hstore b hb).2.1 (by simp [CallerAt.unread])
  case searching =>
      rw [if_neg (by simp), if_neg (by simp)] at hplace
      have hafter : ((s.records ci).stepCaller s.connected s.hasCtx (ci ∈ s.cmdList)).pc =
          if ci ∈ s.cmdList then .withdrawing else .checking := by
        simp [CmdRecord.stepCaller, hpc, CmdRecord.goto]
      refine hgo _ hplace hreply rfl rfl ?_ ?_ ?_ ?_
      · rw [hafter]
        split <;> simp [hpc, CallerAt.unread, CallerAt.bearing]
      · rw [hafter]
        split <;> simpa [hpc, CallerAt.bearing] using Or.inl
      · rw [hafter, hpc]
        simp only [CmdRecord.stepCaller, hpc, CmdRecord.goto]
        split <;> simp [CallerAt.references]
      · exact fun b hb ↦ absurd (hstore b hb).2.1 (by simp [CallerAt.unread])
  case destroying =>
      rw [if_neg (by simp), if_neg (by simp)] at hplace
      refine hgo _ hplace hreply rfl rfl ?_ ?_ ?_ ?_
      · simp [CmdRecord.stepCaller, hpc, CmdRecord.goto, CallerAt.unread, CallerAt.bearing]
      · simpa [CmdRecord.stepCaller, hpc, CmdRecord.goto, CallerAt.bearing] using Or.inl
      · simp [CmdRecord.stepCaller, hpc, CmdRecord.goto, CmdRecord.touch, CallerAt.references]
      · exact fun b hb ↦ absurd (hstore b hb).2.1 (by simp [CallerAt.unread])
  case freeing | checking =>
      rw [if_neg (by simp), if_neg (by simp)] at hplace
      refine hgo _ hplace hreply rfl rfl ?_ ?_ ?_ ?_
      · simp [CmdRecord.stepCaller, hpc, hconnected, CmdRecord.goto, CallerAt.unread,
          CallerAt.bearing]
      · simpa [CmdRecord.stepCaller, hpc, hconnected, CmdRecord.goto, CallerAt.bearing] using Or.inl
      · simp [CmdRecord.stepCaller, hpc, hconnected, CmdRecord.goto, CmdRecord.free,
          CallerAt.references]
      · exact fun b hb ↦ absurd (hstore b hb).2.1 (by simp [CallerAt.unread])
  case done =>
      rw [if_neg (by simp), if_neg (by simp)] at hplace
      refine hgo _ hplace hreply rfl rfl ?_ ?_ ?_ ?_
      · simp [CmdRecord.stepCaller, hpc, CallerAt.unread, CallerAt.bearing]
      · simpa [CmdRecord.stepCaller, hpc] using Or.inl
      · simp [CmdRecord.stepCaller, hpc]
      · exact fun b hb ↦ absurd (hstore b hb).2.1 (by simp [CallerAt.unread])

end Sharing

/-- The event loop in a run of ordinary commands. -/
def LoopAt.Plain (carried : Bool) : LoopAt → Prop
  | .idle | .tasking _ | .issuing .. => True
  | .replying _ reply next | .writing _ reply next =>
      reply = true ∧ next = .replies ∧ carried = true
  | .posting _ next => next = .replies
  | .destroying _ next | .freeing _ next => next = .replies ∧ carried = true
  | _ => False

theorem LoopAt.Plain.carries {carried : Bool} {l : LoopAt} (h : l.Plain carried) :
    l.carries carried = carried := by
  cases l with
  | replying ci reply next => exact h.1.trans h.2.2.symm
  | dropping ci => exact h.elim
  | _ => rfl

namespace Sharing

/-- A connection that stays up and has ordinary commands only. -/
structure Plain (s : Sharing) (carried : Bool) : Prop where
  connected : s.connected = true
  closing : s.ac.flags.closing = false
  subscribed : s.ac.flags.subscribed = false
  monitoring : s.ac.flags.monitoring = false
  only : s.ac.registry = s.ac.replies
  callbacks : ∀ cb ∈ s.ac.replies, cb.fn ≠ none
  nodup : (s.ac.replies.map (·.privdata)).Nodup
  cmds : ∀ ci, (s.records ci).pc ≠ .absent → commandKind (s.records ci).cmd = some .regular
  loop : s.loop.Plain carried

variable {s s' : Sharing} {ci : ℕ} {a : Action} {v : Stand} {e : Entry} {carried : Bool}

/-- A reply goes to the first callback. -/
theorem pick_first {ac : AsyncContext} {cb cb' : RedisCallback} {rest : List RedisCallback}
    (hreplies : ac.replies = cb :: rest) (reply : ReplyTree) :
    ac.pickCallback cb' reply = some (.run cb { ac with replies := rest }) := by
  simp only [AsyncContext.pickCallback, AsyncContext.shiftReplies, hreplies]

theorem registry_replies {ac : AsyncContext} (h : ac.registry = ac.replies)
    (list : List RedisCallback) : { ac with replies := list }.registry = list := by
  have hnil : ac.invalid ++ (ac.channels.entries.map (·.2) ++ ac.patterns.entries.map (·.2)) =
      [] := by
    simpa [AsyncContext.registry] using h
  simp only [AsyncContext.registry, List.append_assoc]
  rw [hnil, List.append_nil]

theorem Plain.once (h : s.Plain carried) {cb : RedisCallback} {rest : List RedisCallback}
    (hreplies : s.ac.replies = cb :: rest) :
    s.ac.Holds cb.privdata ∧ ¬{ s.ac with replies := rest }.Holds cb.privdata := by
  constructor
  · refine ⟨cb, ?_, h.callbacks cb (by simp [hreplies]), rfl⟩
    rw [h.only, hreplies]
    exact List.mem_cons_self
  · rintro ⟨cb', hcb', -, heq⟩
    rw [registry_replies h.only] at hcb'
    have hnodup := h.nodup
    rw [hreplies, List.map_cons, List.nodup_cons] at hnodup
    exact hnodup.1 (heq ▸ List.mem_map_of_mem hcb')

/-- An ordinary command is accepted. -/
theorem Plain.command (h : s.Plain carried) {cmd : List UInt8} {p : Status × AsyncContext}
    (hcmd : commandKind cmd = some .regular)
    (hp : s.ac.asyncCommand (some 0) ci cmd = some p) :
    p.1 = .ok ∧ p.2 = { s.ac with
      replies := s.ac.replies ++ [⟨some 0, ci⟩]
      obuf := s.ac.obuf ++ cmd
      trace := s.ac.trace ++ [.accept ⟨some 0, ci⟩] } := by
  simp only [AsyncContext.asyncCommand, h.closing, hcmd, AsyncContext.registerCallback,
    h.subscribed, Bool.false_eq_true, if_false, Option.map_some, Option.some.injEq] at hp
  obtain rfl := hp
  exact ⟨rfl, rfl⟩

theorem kept_read (h : e.Kept (s.stand ci))
    (hidle : s.loop.work ci = .none) (hregistered : s.ac.Holds ci) {registered current : Prop}
    (hout : ¬registered) : (e.next (s.records ci) (s.records ci) (s.loop.work ci) (.reply true)
      carried).Kept
      { s.stand ci with work := .reply true, registered := registered, current := current } := by
  have hplace : (s.records ci).place = .held := (h.registered hregistered).1
  have hzero : e.handed = 0 := h.awaited (by simp [stand, hplace]) (by simp [stand, hidle])
  have hnext : e.next (s.records ci) (s.records ci) (s.loop.work ci) (.reply true) carried =
      { e with handed := 1 } := by
    rw [Entry.next_loop rfl, hidle, if_neg (by simp)]
    simp [hzero]
  have hbalance := h.balance
  simp only [stand, hidle, Work.bears, hzero] at hbalance
  rw [hnext]
  constructor
  · simp only [stand, Work.bears, Bool.toNat_true]
    omega
  · exact le_rfl
  · exact fun _ hne ↦ absurd rfl (hne true)
  · exact h.reply
  · exact h.got
  · exact h.count
  · exact fun b hb ↦ by simp at hb
  · rintro b hb
    obtain rfl := Work.reply.inj hb
    exact ⟨rfl, hplace⟩
  · exact fun hreg ↦ absurd hreg hout

theorem kept_countDown (hplaced : (s.stand ci).Placed) (h : e.Kept (s.stand ci)) {reply : Bool}
    (hwork : s.loop.work ci = .reply reply)
    (hpunctual : ¬((s.records ci).pc = .dropping ∧ e.got = false)) :
    (e.next (s.records ci) (((s.records ci).count (-1)).put .called) (s.loop.work ci)
      (if (s.records ci).reference - 1 ≤ 0 then .destroy else .store reply) carried).Kept
      { s.stand ci with
        record := ((s.records ci).count (-1)).put .called
        work := if (s.records ci).reference - 1 ≤ 0 then .destroy else .store reply } := by
  obtain ⟨rfl, hplace⟩ : reply = true ∧ (s.records ci).place = .held :=
    h.running reply (by simpa [stand] using hwork)
  obtain ⟨hgot, hnull⟩ := h.untouched (by simp [stand, hplace])
  have hcount : (s.records ci).reference = (s.records ci).pc.references + 1 :=
    h.count (Or.inr (Or.inr hplace))
  have hbalance := h.balance
  simp only [stand, hwork, hgot, Work.bears] at hbalance hnull
  rw [hwork]
  refine .quiet rfl (by split <;> simp) (by simp) ?_
  constructor
  · dsimp only [CmdRecord.put, CmdRecord.count, CmdRecord.touch]
    split <;> simpa [Work.bears, hnull, hgot] using hbalance
  · exact h.once
  · exact fun hcalled ↦ absurd rfl hcalled
  · exact fun _ ↦ rfl
  · simp [hgot]
  · simp [CmdRecord.put]
  · intro b hb
    dsimp only at hb
    split at hb
    · simp at hb
    · rename_i hpositive
      obtain rfl := Work.store.inj hb
      refine ⟨rfl, ?_, hnull⟩
      change (s.records ci).pc.unread = true
      -- The caller counts its reference, and is neither too early nor behind its read.
      have hlate : (s.records ci).pc.early ≠ true := fun hearly ↦
        absurd ((hplaced.early hearly).symm.trans hplace) (by simp)
      have hbehind : (s.records ci).pc ≠ .dropping := fun hpc ↦ hpunctual ⟨hpc, hgot⟩
      have hlow : 0 < (s.records ci).pc.references := by omega
      clear hbalance
      generalize (s.records ci).pc = pc at hlate hbehind hlow
      cases pc <;> simp [CallerAt.unread, CallerAt.early, CallerAt.references] at *
  · intro b hb
    dsimp only at hb
    split at hb <;> simp at hb
  · exact fun hreg ↦ absurd hwork ((h.registered hreg).2 true)

theorem Move.kept (hplaced : (s.stand ci).Placed) (hplain : s.Plain carried)
    (h : e.Kept (s.stand ci))
    (hread : ∀ reply, a = .read reply → s.ac.replies ≠ [])
    (hcaller : a = .caller ci → (s.records ci).pc = .reading → ∀ b : Bool,
      s.loop.work ci ≠ .store b)
    (hpunctual : ∀ reply next, a = .loop → s.loop = .replying ci reply next →
      ¬((s.records ci).pc = .dropping ∧ e.got = false))
    (hmove : s.Move ci a v) :
    (e.next (s.records ci) v.record (s.loop.work ci) v.work carried).Kept v := by
  have hfits : (s.records ci).place.Fits (s.loop.work ci) := hplaced.fits
  have hqueued : ci ∈ s.cmdList ↔ (s.records ci).place = .queued := hplaced.queued
  have hpl := hplain.loop
  cases hmove with
  | rest hcb =>
      simp only [stand]
      rw [Entry.next_same rfl]
      exact ⟨h.balance, h.once, h.awaited, h.reply, h.got, h.count, h.store, h.running,
        h.registered⟩
  | @call cmd habsent =>
      have hunseen : (s.records ci).place = .unseen :=
        hplaced.early (by simp [stand, habsent, CallerAt.early])
      have hnone : s.loop.work ci = .none := by simpa [hunseen, Place.Fits] using hfits
      obtain ⟨rfl, -⟩ := h.unhanded (by simp [stand, hunseen]) (by simp [stand, hnone])
      dsimp only [stand]
      rw [hnone, Entry.next_caller]
      simp only [habsent, CmdRecord.create, reduceCtorEq, and_false, if_false]
      refine Entry.kept_unhanded rfl (.inl rfl) (by simp) fun hreg ↦ ?_
      exact absurd ((h.registered hreg).1.symm.trans hunseen) (by simp)
  | caller habsent hdone =>
      exact kept_caller hplaced h hplain.connected habsent (hcaller rfl) carried
  | repush hidle hmonitoring => exact absurd hmonitoring (by simp [hplain.monitoring])
  | @read reply cb ac hidle hpick hfor =>
      obtain ⟨cb', rest, hreplies⟩ := List.exists_cons_of_ne_nil (hread reply rfl)
      rw [pick_first hreplies, Option.some.injEq, AsyncContext.Picked.run.injEq] at hpick
      obtain ⟨rfl, rfl⟩ := hpick
      obtain ⟨hregistered, hout⟩ := hplain.once hreplies
      rw [hfor.2] at hregistered hout
      exact kept_read h (by rw [hidle]; rfl) hregistered hout
  | pending hending => simp [hending, LoopAt.Plain] at hpl
  | take htasking hmem =>
      have hplace : (s.records ci).place = .queued := hqueued.mp hmem
      have hnone : s.loop.work ci = .none := by rw [htasking]; rfl
      obtain ⟨rfl, hnull⟩ := h.unhanded (by simp [stand, hplace]) (by simp [stand, hnone])
      dsimp only [stand]
      rw [hnone]
      refine .quiet rfl (by simp) (by simp) (Entry.kept_unhanded hnull (.inr rfl) ?_ ?_)
      · exact fun _ ↦ h.count (Or.inl hplace)
      · exact fun hreg ↦ absurd ((h.registered hreg).1.symm.trans hplace) (by simp)
  | @issue num p hloop hcmd =>
      have hwork : s.loop.work ci = .issue := by simp [hloop, LoopAt.work]
      have hplace : (s.records ci).place = .issuing := by
        rw [hwork] at hfits
        exact hfits.place
      obtain ⟨rfl, hnull⟩ := h.unhanded (by simp [stand, hplace]) (by simp [stand, hwork])
      have hpresent := present_of_place hplaced (by simp [hplace])
      obtain ⟨hok, -⟩ := hplain.command (hplain.cmds ci hpresent) hcmd
      dsimp only [stand]
      rw [hwork, if_pos hok]
      refine .quiet rfl (by simp) (by simp) (Entry.kept_unhanded hnull (.inl rfl) ?_ ?_)
      · exact fun _ ↦ h.count (Or.inr (Or.inl hplace))
      · exact fun _ ↦ rfl
  | @replaced cj num p hne hloop hcmd =>
      simp only [stand]
      rw [Entry.next_same rfl]
      refine { h with registered := fun hreg ↦ h.registered ?_ }
      exact (hreg.of_asyncCommand hcmd).resolve_right fun h ↦ hne h.2
  | @countDown reply next hreplying =>
      have hwork : s.loop.work ci = .reply reply := by simp [hreplying, LoopAt.work]
      exact kept_countDown hplaced h hwork (hpunctual reply next rfl hreplying)
  | @store reply next hloop =>
      have hwork : s.loop.work ci = .store reply := by simp [hloop, LoopAt.work]
      obtain ⟨rfl, hunread, hnull⟩ := h.store reply hwork
      have hplace : (s.records ci).place = .called := by
        rw [hwork] at hfits
        exact hfits.place
      have hbalance := h.balance
      simp only [stand, hwork, Work.bears] at hbalance hunread hnull
      dsimp only [stand]
      rw [hwork]
      refine .quiet rfl (by simp) (by simp) (h.called rfl hplace hplace (by simp) id ?_)
      simpa [stand, Work.bears, CmdRecord.touch, hunread, hnull] using hbalance
  | @post next hloop =>
      have hwork : s.loop.work ci = .post := by simp [hloop, LoopAt.work]
      have hplace : (s.records ci).place = .called := by
        rw [hwork] at hfits
        exact hfits.place
      have hbalance := h.balance
      simp only [stand, hwork, Work.bears] at hbalance
      dsimp only [stand]
      rw [hwork]
      exact .quiet rfl (by simp) (by simp) (h.called rfl hplace hplace (by simp) id hbalance)
  | @destroy next hloop =>
      have hwork : s.loop.work ci = .destroy := by simp [hloop, LoopAt.work]
      have hbalance := h.balance
      have hawaited := h.awaited
      simp only [stand, hwork, Work.bears] at hbalance hawaited
      dsimp only [stand]
      rw [hwork]
      refine .quiet rfl (by simp) (by simp) ?_
      constructor
      · exact hbalance
      · exact h.once
      · exact fun hcalled _ ↦ hawaited hcalled (by simp)
      · exact h.reply
      · exact h.got
      · exact h.count
      · simp
      · simp
      · exact fun hreg ↦ ⟨(h.registered hreg).1, by simp⟩
  | @free next hloop =>
      have hwork : s.loop.work ci = .free := by simp [hloop, LoopAt.work]
      rw [hloop] at hpl
      obtain ⟨-, rfl⟩ := hpl
      have hbalance := h.balance
      have hawaited := h.awaited
      simp only [stand, hwork, Work.bears] at hbalance hawaited
      dsimp only [stand]
      have hnext : e.next (s.records ci) (s.records ci).free .free .none true =
          { e with discarded := e.discarded + 1 } := by
        have hpc : (s.records ci).free.pc = (s.records ci).pc := rfl
        rw [Entry.next_loop hpc]
        simp
      rw [hwork, hnext]
      constructor
      · change e.handed = e.returned + (e.discarded + 1) + 0 +
          ((s.records ci).pc.unread && (s.records ci).reply).toNat +
          ((s.records ci).pc.bearing && e.got).toNat
        omega
      · exact h.once
      · exact fun hcalled _ ↦ hawaited hcalled (by simp)
      · exact h.reply
      · exact h.got
      · exact h.count
      · simp
      · simp
      · exact fun hreg ↦ ⟨(h.registered hreg).1, by simp⟩
  | clear hclearing => simp [hclearing, LoopAt.Plain] at hpl
  | drop hdropping => simp [hdropping, LoopAt.Plain] at hpl
  | scrap hscrapping => simp [hscrapping, LoopAt.Plain] at hpl

theorem Move.cmd (hmove : s.Move ci a v) :
    (v.record.cmd = (s.records ci).cmd ∧ (v.record.pc ≠ .absent → (s.records ci).pc ≠ .absent)) ∨
      a = .call ci v.record.cmd := by
  cases hmove with
  | call habsent => exact Or.inr rfl
  | caller habsent hdone =>
      refine Or.inl ⟨?_, fun _ ↦ habsent⟩
      obtain ⟨cmd, reference, reply, posts, freed, stale, pc, place⟩ := s.records ci
      cases pc <;> cases s.hasCtx <;> by_cases hmem : ci ∈ s.cmdList <;>
        simp [CmdRecord.stepCaller, hmem, CmdRecord.goto, CmdRecord.touch, CmdRecord.count,
          CmdRecord.put, CmdRecord.free]
  | _ => exact Or.inl ⟨rfl, id⟩

/-- The connection and the event loop in a step of a run of ordinary commands. -/
theorem Plain.frame (h : s.Plain carried) {carried' : Bool} (hac : s'.ac = s.ac)
    (hconnected : s'.connected = s.connected)
    (hcmds : ∀ ci, (s'.records ci).pc ≠ .absent → commandKind (s'.records ci).cmd = some .regular)
    (hloop : s'.loop.Plain carried') : s'.Plain carried' where
  connected := hconnected.trans h.connected
  closing := hac ▸ h.closing
  subscribed := hac ▸ h.subscribed
  monitoring := hac ▸ h.monitoring
  only := hac ▸ h.only
  callbacks := hac ▸ h.callbacks
  nodup := hac ▸ h.nodup
  cmds := hcmds
  loop := hloop

theorem Plain.carry (h : s.Plain carried) (hac : s'.ac = s.ac)
    (hconnected : s'.connected = s.connected)
    (hcmds : ∀ ci, (s'.records ci).pc ≠ .absent → commandKind (s'.records ci).cmd = some .regular)
    (hloop : s'.loop.Plain carried) : s'.Plain (s'.loop.carries carried) := by
  rw [hloop.carries]
  exact h.frame hac hconnected hcmds hloop

theorem Plain.read (h : s.Plain carried) {cb cb' : RedisCallback} {rest : List RedisCallback}
    (hreplies : s.ac.replies = cb :: rest) :
    ({ s with ac := { s.ac with replies := rest }, cb := cb' }.runCallback cb true .replies).Plain
      (LoopAt.carries carried
        ({ s with ac := { s.ac with replies := rest }, cb := cb' }.runCallback cb true
          .replies).loop) := by
  have hfn : cb.fn ≠ none := h.callbacks cb (hreplies ▸ List.mem_cons_self)
  have hnodup := h.nodup
  rw [hreplies, List.map_cons, List.nodup_cons] at hnodup
  rcases runCallback_cases { s with ac := { s.ac with replies := rest }, cb := cb' } cb true
    .replies with ⟨hnone, -⟩ | ⟨-, hrun⟩
  · exact absurd hnone hfn
  · rw [hrun]
    exact {
      connected := h.connected
      closing := h.closing
      subscribed := h.subscribed
      monitoring := h.monitoring
      only := registry_replies h.only rest
      callbacks := fun cb hcb ↦ h.callbacks cb (hreplies ▸ List.mem_cons_of_mem _ hcb)
      nodup := hnodup.2
      cmds := h.cmds
      loop := ⟨rfl, rfl, rfl⟩ }

theorem Plain.issue (h : s.Plain carried) (hplaced : s.Placed) {num : ℕ}
    {p : Status × AsyncContext} (hloop : s.loop = .issuing ci num)
    (hcmd : s.ac.asyncCommand (some 0) ci (s.records ci).cmd = some p) :
    p.1 = .ok ∧ ∀ r : CmdRecord, r.cmd = (s.records ci).cmd →
      Plain { s.update ci r with ac := p.2, loop := .tasking num } carried := by
  have hplace : (s.records ci).place = .issuing := by
    have hfits := (hplaced.stands ci).fits
    simp only [stand, hloop, LoopAt.work, if_true] at hfits
    exact hfits.place
  have hpresent := present_of_place (hplaced.stands ci) (by simp [hplace])
  obtain ⟨hok, hac⟩ := h.command (h.cmds ci hpresent) hcmd
  have hout : ci ∉ s.ac.replies.map (·.privdata) := by
    intro hmem
    obtain ⟨cb, hcb, hprivdata⟩ := List.mem_map.mp hmem
    have hholds : s.ac.Holds ci := ⟨cb, h.only ▸ hcb, h.callbacks cb hcb, hprivdata⟩
    have hat := (hplaced.stands ci).callbacks (Or.inl hholds)
    simp [stand, hplace] at hat
  refine ⟨hok, fun r hr ↦ ?_⟩
  rw [hac]
  constructor
  · exact h.connected
  · exact h.closing
  · exact h.subscribed
  · exact h.monitoring
  · exact registry_replies h.only _
  · intro cb hcb
    rcases List.mem_append.mp hcb with hold | hnew
    · exact h.callbacks cb hold
    · obtain rfl := List.mem_singleton.mp hnew
      simp
  · change (List.map RedisCallback.privdata (s.ac.replies ++ [⟨some 0, ci⟩])).Nodup
    rw [List.map_append, List.nodup_append]
    refine ⟨h.nodup, List.nodup_singleton _, ?_⟩
    rintro n hn m hm rfl
    obtain rfl : n = ci := by simpa using hm
    exact hout hn
  · intro cj hcj
    by_cases hj : cj = ci
    · subst hj
      simpa [update, hr] using h.cmds cj hpresent
    · simp only [update, Function.update_of_ne hj] at hcj ⊢
      exact h.cmds cj hcj
  · trivial

theorem Plain.loopStep (h : s.Plain carried) (hplaced : s.Placed)
    (hcmds : ∀ ci, (s'.records ci).pc ≠ .absent → commandKind (s'.records ci).cmd = some .regular)
    (hstep : s.LoopStep s') : s'.Plain (s'.loop.carries carried) := by
  have hpl := h.loop
  cases hstep with
  | take hl hlist => exact h.carry rfl rfl hcmds trivial
  | taken hl hdone => exact h.carry rfl rfl hcmds trivial
  | issue hl hcmd =>
      obtain ⟨rfl, hplain⟩ := h.issue hplaced hl hcmd
      exact hplain _ rfl
  | reply hl =>
      rw [hl] at hpl
      obtain ⟨rfl, rfl, hcarried⟩ := hpl
      refine h.carry rfl rfl hcmds ?_
      dsimp only
      split <;> simp [LoopAt.Plain, hcarried]
  | write hl =>
      rw [hl] at hpl
      exact h.carry rfl rfl hcmds hpl.2.1
  | post hl =>
      rw [hl] at hpl
      obtain rfl := hpl
      exact h.carry rfl rfl hcmds trivial
  | destroy hl =>
      rw [hl] at hpl
      exact h.carry rfl rfl hcmds hpl
  | free hl =>
      rw [hl] at hpl
      obtain rfl := hpl.1
      exact h.carry rfl rfl hcmds trivial
  -- The rest is done while the connection ends.
  | pending hl | lose hl | leave hl | clear hl | cleared hl | drop hl | unlock hl | scrap hl
  | scrapped hl =>
      rw [hl] at hpl
      exact hpl.elim

end Sharing

namespace Ownership

open Sharing (Action)

variable {o o' : Ownership} {a : Sharing.Action}

theorem plain_step (h : o.share.Plain o.carried) (hplaced : o.share.Placed)
    (hordinary : o.Ordinary a) {share : Sharing} (hstep : o.share.step a = some share) :
    share.Plain (share.loop.carries o.carried) := by
  have hcmds : ∀ ci, (share.records ci).pc ≠ .absent →
      commandKind (share.records ci).cmd = some .regular := by
    intro ci hci
    rcases (Sharing.step_move hplaced.nodup hstep ci).cmd with ⟨hcmd, hpresent⟩ | hcall
    · exact hcmd ▸ h.cmds ci (hpresent hci)
    · subst hcall
      exact hordinary
  cases Sharing.step_cases hstep with
  | call => exact h.carry rfl rfl hcmds h.loop
  | caller hcaller =>
      have hkeep := Sharing.stepCaller_cases hcaller
      exact h.carry hkeep.ac hkeep.connected hcmds (hkeep.loop ▸ h.loop)
  | context => exact h.carry rfl rfl hcmds h.loop
  | task => exact h.carry rfl rfl hcmds trivial
  | taskLost => exact h.carry rfl rfl hcmds h.loop
  | read _ hpick =>
      obtain ⟨first, rest, hreplies⟩ := List.exists_cons_of_ne_nil hordinary
      rw [Sharing.pick_first hreplies] at hpick
      cases hpick
      exact h.read hreplies
  | readError _ hpick =>
      obtain ⟨first, rest, hreplies⟩ := List.exists_cons_of_ne_nil hordinary
      rw [Sharing.pick_first hreplies] at hpick
      cases hpick
  | endCall =>
      have hkeep : o.share.ac.flags.monitoring ≠ true := by simp [h.monitoring]
      exact h.carry (if_neg hkeep) rfl hcmds h.loop
  | close => exact hordinary.elim
  | free => exact hordinary.elim
  | loop hloop => exact h.loopStep hplaced hcmds (Sharing.loopStep_cases hloop)

/-- What the runs that meet the condition keep. -/
structure Tracked (o : Ownership) : Prop where
  placed : o.share.Placed
  plain : o.share.Plain o.carried
  kept : ∀ ci, (o.ledger ci).Kept (o.share.stand ci)

theorem Tracked.step (h : o.Tracked) (hclaimed : o.Claimed a) (hstep : o.step a = some o') :
    o'.Tracked := by
  obtain ⟨hordinary, hpunctual⟩ := hclaimed
  obtain ⟨share, hshare, rfl⟩ := Option.map_eq_some_iff.mp hstep
  refine ⟨h.placed.step hshare, plain_step h.plain h.placed hordinary hshare, fun ci ↦ ?_⟩
  have hmove := Sharing.step_move h.placed.nodup hshare ci
  apply hmove.kept (h.placed.stands ci) h.plain (h.kept ci)
  · rintro reply rfl
    exact hordinary
  · rintro rfl hreading
    exact hpunctual hreading
  · rintro reply next rfl hreplying
    simp only [Punctual, hreplying, LoopPunctual] at hpunctual
    exact hpunctual

theorem fresh_tracked : fresh.Tracked := by
  refine ⟨Sharing.fresh_placed, ?_, fun ci ↦ ?_⟩
  · constructor <;>
      simp [fresh, Sharing.fresh, AsyncContext.redisAsyncInitialize, AsyncContext.registry,
        Flags.closing, CmdRecord.absent, LoopAt.Plain]
  · have hout : ¬(Sharing.fresh.stand ci).registered := by
      rintro ⟨cb, hcb, -⟩
      simp [Sharing.fresh, AsyncContext.redisAsyncInitialize, AsyncContext.registry] at hcb
    constructor
    case registered => exact fun hreg ↦ absurd hreg hout
    all_goals simp [fresh, Sharing.stand, Sharing.fresh, CmdRecord.absent, LoopAt.work, Work.bears,
      CallerAt.unread, CallerAt.bearing]

theorem Tracked.single (h : o.Tracked) : o.Single := by
  intro ci
  have hbalance := (h.kept ci).balance
  refine ⟨(h.kept ci).once, by omega, fun hdone hwork ↦ ?_⟩
  simp only [Sharing.stand, hdone, hwork, Work.bears, CallerAt.unread, CallerAt.bearing,
    Bool.false_and, Bool.toNat_false] at hbalance
  omega

/-- In every run of ordinary commands in which `replyCallback` counts down and
stores before the caller reads or after it has counted down, every reply has one
owner. -/
theorem claimed_single (h : machine.Reach Claimed o) : o.Single := by
  have htracked : o.Tracked := by
    refine h.invariant ?_ ?_
    · rintro o rfl
      exact fresh_tracked
    · intro o a o' ho hclaimed hstep
      exact ho.step hclaimed hstep
  exact htracked.single

/-- One caller gets its reply, and another times out before its reply comes. -/
theorem claimed_single_two :
    ∃ o, machine.Reach Claimed o ∧ (o.ledger 0).returned = 1 ∧ (o.ledger 1).discarded = 1 ∧
      o.Single := by
  obtain ⟨o, hrun, howned⟩ := machine.run_spec fresh
    ([Action.call 0 (Command.ofWords "GET" ["x"]).bytes,
        Action.call 1 (Command.ofWords "GET" ["y"]).bytes] ++
      List.replicate 6 (Action.caller 0) ++ List.replicate 6 (Action.caller 1) ++
      [Action.task 2] ++ List.replicate 5 Action.loop ++ List.replicate 5 (Action.caller 1) ++
      [Action.read .nil] ++ List.replicate 3 Action.loop ++ List.replicate 5 (Action.caller 0) ++
      [Action.read .nil] ++ List.replicate 3 Action.loop)
    (fun o ↦ decide ((o.ledger 0).returned = 1 ∧ (o.ledger 1).discarded = 1)) (by decide +kernel)
  obtain ⟨hreturned, hdiscarded⟩ := of_decide_eq_true howned
  have hreach : machine.Reach Claimed o := (Machine.Reach.start rfl).run (by decide +kernel) hrun
  exact ⟨o, hreach, hreturned, hdiscarded, claimed_single hreach⟩

/-- A caller times out and reads `NULL`; then `replyCallback` counts down, stores
the reply and posts; then the caller counts down and frees the record. -/
theorem late_reply_lost : ∃ o, machine.Reach Ordinary o ∧ ¬o.Single := by
  obtain ⟨o, hrun, hlost⟩ := machine.run_spec fresh
    ([Action.call 0 (Command.ofWords "GET" ["x"]).bytes] ++
      List.replicate 6 (Action.caller 0) ++
      [Action.task 1] ++ List.replicate 3 Action.loop ++ List.replicate 2 (Action.caller 0) ++
      [Action.read .nil] ++ List.replicate 3 Action.loop ++ List.replicate 3 (Action.caller 0))
    (fun o ↦ decide ((o.share.records 0).pc = .done ∧ o.share.loop.work 0 = .none ∧
      (o.ledger 0).handed = 1 ∧ (o.ledger 0).returned = 0 ∧ (o.ledger 0).discarded = 0))
    (by decide +kernel)
  obtain ⟨hdone, hwork, hhanded, hreturned, hdiscarded⟩ := of_decide_eq_true hlost
  have hreach : machine.Reach Ordinary o := (Machine.Reach.start rfl).run (by decide +kernel) hrun
  refine ⟨o, hreach, fun h ↦ ?_⟩
  have hend := (h 0).2.2 hdone hwork
  omega

end Ownership

end MuxHiredis
