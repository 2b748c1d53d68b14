import MuxHiredis.Mux.Client

/-!
# The context of a connected `xc`

The status of an `xRedisContext` and its `ctx` change in different places: a late
connect sets the one, an attempt or a teardown the other.
-/

namespace MuxHiredis

namespace Client

/-- The context's own connect has completed, and it was not lost or torn down
since. -/
def Established (s : Client) (c : ℕ) : Prop :=
  (s.conns c).torn = 0 ∧ (s.conns c).connected = true ∧ (s.conns c).lost = false

instance (s : Client) : DecidablePred s.Established :=
  fun _ ↦ inferInstanceAs (Decidable (_ ∧ _ ∧ _))

/-- Where the status is `REDIS_CONNECTED` and `xc->mutex` is free, `xc->ctx` is an
established context. -/
def Settled (s : Client) : Prop :=
  ∀ x, (s.xcs x).freed = false → (s.xcs x).connected = true → s.Unlocked x →
    ∃ c, (s.xcs x).ctx = some c ∧ s.Established c

/-- Where the event loop is about to tear a context down, its `xc` let go of it or
is not connected. -/
def CurrentAt (s : Client) : EventLoop → Prop
  | .ending c => s.LetGo c ∨ (s.xcs (s.conns c).xc).connected = false
  | .clearingFree =>
      ∀ c ∈ s.freeAcList.head?, s.LetGo c ∨ (s.xcs (s.conns c).xc).connected = false
  | _ => True

instance (s : Client) : DecidablePred s.CurrentAt
  | .ending _ => inferInstanceAs (Decidable (_ ∨ _))
  | .clearingFree => inferInstanceAs (Decidable (∀ c ∈ _, _ ∨ _))
  | .idle | .losing _ | .listing _ | .clearingReconn | .quit => .isTrue trivial

/-- The condition on the steps that can unsettle an `xc`.  A connect completes
only for the present context, or while that one is established; a reconnect
attempt starts only where the status is not `REDIS_CONNECTED`; for a teardown see
`CurrentAt`. -/
def Current (s : Client) : Action → Prop
  | .establish c =>
      (s.xcs (s.conns c).xc).freed = true ∨
        ∃ c' ∈ (s.xcs (s.conns c).xc).ctx, c' = c ∨ s.Established c'
  | .reconnect x => (s.xcs x).freed = true ∨ (s.xcs x).connected = false
  | .loop => s.CurrentAt s.loop
  | _ => True

instance (s : Client) : DecidablePred s.Current
  | .establish _ => inferInstanceAs (Decidable (_ ∨ ∃ c' ∈ _, _ ∨ _))
  | .reconnect _ => inferInstanceAs (Decidable (_ ∨ _))
  | .loop => inferInstanceAs (Decidable (s.CurrentAt s.loop))
  | .connect _ _ | .wake _ | .create _ | .abandon | .attach | .resume | .remove | .fail _ | .lose _
  | .deal | .free _ | .unlist _ | .release _ | .stop | .clear => .isTrue trivial

/-- What the runs that meet `Current` keep; it holds of a locked `xc` too. -/
structure Steady (s : Client) : Prop where
  owns : s.Owns
  lost : ∀ c, (s.conns c).lost = true → (s.conns c).connected = true
  ctx : ∀ x, (s.xcs x).freed = false → (s.xcs x).connected = true →
    ∃ c, (s.xcs x).ctx = some c ∧ s.Established c
  creating : ∀ x, s.reconnect = .creating x → (s.xcs x).freed = true ∨ (s.xcs x).connected = false

theorem Steady.settled {s : Client} (h : s.Steady) : s.Settled :=
  fun x hfreed hconnected _ ↦ h.ctx x hfreed hconnected

/-- Where the status is `REDIS_CONNECTED` it was so before, with the same
context. -/
def Stays (s s' : Client) : Prop :=
  ∀ x, (s'.xcs x).freed = false → (s'.xcs x).connected = true →
    (s.xcs x).freed = false ∧ (s.xcs x).connected = true ∧ (s'.xcs x).ctx = (s.xcs x).ctx

theorem Stays.refl (s : Client) : s.Stays s := fun _ hfreed hconnected ↦ ⟨hfreed, hconnected, rfl⟩

theorem Stays.of_update {s s' : Client} {x : ℕ} {xc : XContext}
    (hxcs : s'.xcs = Function.update s.xcs x xc)
    (hxc : xc.freed = false → xc.connected = true →
      (s.xcs x).freed = false ∧ (s.xcs x).connected = true ∧ xc.ctx = (s.xcs x).ctx) :
    s.Stays s' := by
  intro x' hfreed hconnected
  rw [hxcs] at hfreed hconnected ⊢
  by_cases hx : x' = x
  · subst hx
    rw [Function.update_self] at hfreed hconnected ⊢
    exact hxc hfreed hconnected
  · rw [Function.update_of_ne hx] at hfreed hconnected ⊢
    exact ⟨hfreed, hconnected, rfl⟩

theorem Steady.frame {s s' : Client} (h : s.Steady) (howns : s'.Owns)
    (hlost : ∀ c, (s'.conns c).lost = true → (s'.conns c).connected = true)
    (hstays : s.Stays s') (hcreating : ∀ x, s'.reconnect = .creating x → s.reconnect = .creating x)
    (hestablished : ∀ x c, (s'.xcs x).freed = false → (s'.xcs x).connected = true →
      (s.xcs x).ctx = some c → s.Established c → s'.Established c) : s'.Steady := by
  refine ⟨howns, hlost, fun x hfreed hconnected ↦ ?_, fun x hat ↦ ?_⟩
  · obtain ⟨hfreed', hconnected', hctx⟩ := hstays x hfreed hconnected
    obtain ⟨c, hc, hest⟩ := h.ctx x hfreed' hconnected'
    exact ⟨c, hctx.trans hc, hestablished x c hfreed hconnected hc hest⟩
  · have hbegun := h.creating x (hcreating x hat)
    by_contra hnot
    obtain ⟨hfreed, hconnected⟩ : (s'.xcs x).freed = false ∧ (s'.xcs x).connected = true := by
      simpa using hnot
    obtain ⟨hfreed', hconnected', -⟩ := hstays x hfreed hconnected
    simp [hfreed', hconnected'] at hbegun

theorem Steady.frameXc {s s' : Client} (h : s.Steady) (howns : s'.Owns)
    (hconns : s'.conns = s.conns) (hstays : s.Stays s')
    (hcreating : ∀ x, s'.reconnect = .creating x → s.reconnect = .creating x) : s'.Steady := by
  refine h.frame howns (hconns ▸ h.lost) hstays hcreating fun _ c _ _ _ hest ↦ ?_
  unfold Established
  rw [hconns]
  exact hest

/-- A step that changes one context keeps the others, and with it the `xc`s that
do not hold it. -/
theorem Steady.frameConn {s s' : Client} (h : s.Steady) (howns : s'.Owns) {c : ℕ} {conn : Conn}
    (hconns : s'.conns = Function.update s.conns c conn)
    (hlost : conn.lost = true → conn.connected = true) (hstays : s.Stays s')
    (hcreating : ∀ x, s'.reconnect = .creating x → s.reconnect = .creating x)
    (hctx : ∀ x, (s'.xcs x).freed = false → (s'.xcs x).connected = true →
      (s.xcs x).ctx = some c → s.Established c →
      conn.torn = 0 ∧ conn.connected = true ∧ conn.lost = false) : s'.Steady := by
  refine h.frame howns (fun c' ↦ ?_) hstays hcreating fun x c' hfreed hconnected hc' hest ↦ ?_
  · rw [hconns]
    by_cases hc : c' = c
    · subst hc
      simpa using hlost
    · rw [Function.update_of_ne hc]
      exact h.lost c'
  · unfold Established
    rw [hconns]
    by_cases hc : c' = c
    · subst hc
      simpa using hctx x hfreed hconnected hc' hest
    · rw [Function.update_of_ne hc]
      exact hest

theorem Steady.create {s s' : Client} (h : s.Steady) (howns : s'.Owns) {x c : ℕ} {xc : XContext}
    (hmade : (s.conns c).made = false) (hxc : xc.freed = true ∨ xc.connected = false)
    (hconns : s'.conns = Function.update s.conns c (.create x))
    (hxcs : s'.xcs = Function.update s.xcs x xc)
    (hcreating : ∀ x, s'.reconnect = .creating x → s.reconnect = .creating x) : s'.Steady := by
  refine h.frameConn howns hconns (by simp [Conn.create]) (.of_update hxcs ?_) hcreating ?_
  · intro hfreed hconnected
    simp [hfreed, hconnected] at hxc
  · intro x' _ _ hc _
    simp [(h.owns x' c hc).1] at hmade

theorem Steady.establish {s s' : Client} (h : s.Steady) {c : ℕ} (hcur : s.Current (.establish c))
    (hstep : s.establish c = some s') : s'.Steady := by
  have howns : s'.Owns := h.owns.step (a := .establish c) hstep
  simp only [Client.establish, Option.ite_none_right_eq_some, Option.some.injEq] at hstep
  obtain ⟨⟨⟨_, ⟨_, htorn⟩, hunlocked⟩, hfresh⟩, rfl⟩ := hstep
  have hlost : (s.conns c).lost = false := by
    by_contra hlost
    simp [h.lost c (by simpa using hlost)] at hfresh
  refine ⟨howns, fun c' ↦ ?_, fun x hfreed hconnected ↦ ?_, fun x hat ↦ ?_⟩
  · by_cases hc : c' = c
    · subst hc
      simp
    · simpa [hc] using h.lost c'
  · have hkeeps : ∀ c', s.Established c' → c' ≠ c →
        Established ((s.setConn c { s.conns c with connected := true }).setXc (s.conns c).xc
          { s.xcs (s.conns c).xc with connected := true }) c' := by
      intro c' hest hc
      simpa [Established, hc] using hest
    have hnew : Established ((s.setConn c { s.conns c with connected := true }).setXc
        (s.conns c).xc { s.xcs (s.conns c).xc with connected := true }) c := by
      simp [Established, htorn, hlost]
    have hall : ∀ c', c' = c ∨ s.Established c' →
        Established ((s.setConn c { s.conns c with connected := true }).setXc (s.conns c).xc
          { s.xcs (s.conns c).xc with connected := true }) c' := by
      intro c' hc'
      by_cases hc : c' = c
      · exact hc ▸ hnew
      · exact hkeeps c' (hc'.resolve_left hc) hc
    by_cases hx : x = (s.conns c).xc
    · subst hx
      simp only [xcs_setXc, Function.update_self] at hfreed hconnected ⊢
      obtain hfreed' | ⟨c', hc', hest⟩ := hcur
      · simp [hfreed'] at hfreed
      · exact ⟨c', hc', hall c' hest⟩
    · simp only [xcs_setXc, xcs_setConn, Function.update_of_ne hx] at hfreed hconnected ⊢
      obtain ⟨c', hc', hest⟩ := h.ctx x hfreed hconnected
      exact ⟨c', hc', hall c' (.inr hest)⟩
  · have hx : x ≠ (s.conns c).xc := by
      rintro rfl
      exact hunlocked (by rw [show s.reconnect = _ from hat]; rfl)
    simp only [xcs_setXc, xcs_setConn, Function.update_of_ne hx]
    exact h.creating x hat

/-- The `xc` of a context that may be torn down does not need it. -/
theorem Owns.not_current {s : Client} (h : s.Owns) {c : ℕ}
    (hcur : s.LetGo c ∨ (s.xcs (s.conns c).xc).connected = false) {x : ℕ}
    (hfreed : (s.xcs x).freed = false) (hconnected : (s.xcs x).connected = true)
    (hc : (s.xcs x).ctx = some c) : False := by
  obtain ⟨_, rfl⟩ := h x c hc
  rcases hcur with hlet | hdown
  · exact h.ctx_ne hlet _ hfreed hc
  · simp [hdown] at hconnected

theorem Steady.stepLoop {s s' : Client} (h : s.Steady) (hcur : s.CurrentAt s.loop)
    (hstep : s.stepLoop = some s') : s'.Steady := by
  have howns : s'.Owns := h.owns.step (a := .loop) hstep
  obtain ⟨hconns, hxcs, _, _⟩ | ⟨c, hloop, rfl⟩ | ⟨x, rest, s₁, hloop, hlist, rfl, hs₁⟩ |
    ⟨c, rest, hloop, hlist, rfl⟩ := stepLoop_cases hstep
  · have hstays : s.Stays s' := fun x hfreed hconnected ↦ by
      rw [hxcs] at hfreed hconnected ⊢
      exact ⟨hfreed, hconnected, rfl⟩
    exact h.frameXc howns hconns hstays fun x hat ↦ (stepLoop_reconnect hstep).symm.trans hat
  · rw [hloop] at hcur
    exact h.frameConn howns rfl (h.lost c) (.refl s) (fun _ ↦ id) fun _ hfreed hconnected hc _ ↦
      (h.owns.not_current hcur hfreed hconnected hc).elim
  · have hstays : ∀ s',
        s'.xcs = Function.update s.xcs x { s.xcs x with ctx := none, freed := true } →
        s.Stays s' := fun s' hxcs ↦ .of_update hxcs (by simp)
    obtain ⟨_, rfl⟩ | ⟨c, hctx, rfl⟩ := hs₁
    · exact h.frameXc howns rfl (hstays _ rfl) fun _ ↦ id
    · refine h.frameConn howns rfl (h.lost c) (hstays _ rfl) (fun _ ↦ id) fun x' hfreed' _ hc _ ↦ ?_
      have hx : x' = x := (h.owns x' c hc).2.symm.trans (h.owns x c hctx).2
      subst hx
      simp at hfreed'
  · simp only [hloop, CurrentAt, hlist, List.head?_cons, Option.mem_some_iff, forall_eq'] at hcur
    exact h.frameConn howns rfl (h.lost c) (.refl s) (fun _ ↦ id) fun _ hfreed hconnected hc _ ↦
      (h.owns.not_current hcur hfreed hconnected hc).elim

theorem Steady.step {s s' : Client} (h : s.Steady) {a : Action} (hcur : s.Current a)
    (hstep : s.step a = some s') : s'.Steady := by
  have howns : s'.Owns := h.owns.step hstep
  cases step_cases hstep with
  | connect _ hmade =>
      exact h.create howns hmade (.inr rfl) rfl rfl fun _ ↦ id
  | @reconnect x _ _ _ =>
      have hbegun : (s.xcs x).freed = true ∨ (s.xcs x).connected = false := hcur
      refine ⟨howns, h.lost, fun y hfreed hconnected ↦ ?_, fun y hat ↦ ?_⟩
      · by_cases hy : y = x
        · subst hy
          simp only [xcs_setXc, Function.update_self] at hfreed hconnected
          simp [hfreed, hconnected] at hbegun
        · simp only [xcs_setXc, Function.update_of_ne hy] at hfreed hconnected ⊢
          exact h.ctx y hfreed hconnected
      · obtain rfl := ReconnectThread.creating.inj hat
        simpa using hbegun
  | create hat hmade =>
      refine h.create howns hmade ?_ rfl rfl (by simp)
      exact h.creating _ hat
  | abandon =>
      exact h.frameXc howns rfl (.refl s) (by simp)
  | wake =>
      refine h.frameXc howns rfl (.of_update rfl fun hfreed hconnected ↦ ⟨?_, hconnected, rfl⟩)
        fun _ ↦ id
      exact (Bool.or_eq_false_iff.mp hfreed).1
  | attach =>
      exact h.frameXc howns rfl (.refl s) (by simp)
  | resumeUp _ _ =>
      exact h.frameXc howns rfl (.refl s) (by simp)
  | resumeDown _ hdown =>
      exact h.frameXc howns rfl (.of_update rfl fun _ hconnected ↦ absurd hconnected hdown)
        (by simp)
  | remove =>
      exact h.frameXc howns rfl (.refl s) (by simp)
  | establish _ _ => exact h.establish hcur hstep
  | fail =>
      exact h.frameXc howns rfl (.refl s) fun _ ↦ id
  | @lose c _ hup =>
      refine h.frameConn howns rfl (fun _ ↦ hup) (.of_update rfl (by simp)) (fun _ ↦ id) ?_
      intro x hfreed hconnected hc _
      obtain ⟨_, rfl⟩ := h.owns x c hc
      simp at hconnected
  | deal =>
      exact h.frameXc howns rfl (.refl s) fun _ ↦ id
  | loop _ => exact h.stepLoop hcur hstep
  | freeNone _ _ =>
      exact h.frameXc howns rfl (.of_update rfl fun hfreed hconnected ↦ ⟨hfreed, hconnected, rfl⟩)
        fun _ ↦ id
  | @freeSome _ c _ _ =>
      exact h.frameConn howns rfl (h.lost c)
        (.of_update rfl fun hfreed hconnected ↦ ⟨hfreed, hconnected, rfl⟩) (fun _ ↦ id)
        fun _ _ _ _ hest ↦ hest
  | unlist =>
      exact h.frameXc howns rfl (.of_update rfl fun hfreed hconnected ↦ ⟨hfreed, hconnected, rfl⟩)
        fun _ ↦ id
  | release =>
      exact h.frameXc howns rfl (.of_update rfl (by simp)) fun _ ↦ id
  | stop =>
      exact h.frameXc howns rfl (.refl s) fun _ ↦ id
  | clear =>
      exact h.frameXc howns rfl (.refl s) fun _ ↦ id

theorem fresh_steady : fresh.Steady where
  owns := fresh_owns
  lost := fun c hc ↦ by simp [fresh, Conn.absent] at hc
  ctx := fun x _ hconnected ↦ by simp [fresh, XContext.absent] at hconnected
  creating := fun x hat ↦ by simp [fresh] at hat

/-- In every run whose connects, attempts and teardowns concern the present
context only, a connected `xc` has an established context. -/
theorem current_settled {s : Client} (h : machine.Reach Current s) : s.Settled := by
  have hsteady : s.Steady := by
    refine h.invariant ?_ ?_
    · rintro s rfl
      exact fresh_steady
    · intro s a s' hs hcur hstep
      exact hs.step hcur hstep
  exact hsteady.settled

/-- A connection is lost, a first attempt times out, and a second succeeds. -/
theorem current_settled_reconnect :
    ∃ s, machine.Reach Current s ∧ (s.xcs 0).connected = true ∧ (s.xcs 0).ctx = some 2 ∧
      s.Settled := by
  obtain ⟨s, hrun, hctx⟩ := machine.run_spec fresh
    [.connect 0 0, .establish 0, .wake 0, .lose 0, .loop, .loop, .loop,
      .reconnect 0, .create 1, .attach, .resume, .reconnect 0, .create 2, .attach, .establish 2,
      .resume, .remove]
    (fun s ↦ decide ((s.xcs 0).connected = true ∧ (s.xcs 0).ctx = some 2)) (by decide)
  have hreach : machine.Reach Current s := (Machine.Reach.start rfl).run (by decide) hrun
  obtain ⟨hconnected, hctx⟩ := of_decide_eq_true hctx
  exact ⟨s, hreach, hconnected, hctx, current_settled hreach⟩

/-- An attempt times out, and its connect completes later. -/
theorem late_connect_unsettles : ∃ s, machine.Reachable s ∧ ¬s.Settled := by
  obtain ⟨s, hrun, hlate⟩ := machine.run_spec fresh
    [.connect 0 0, .establish 0, .wake 0, .lose 0, .loop, .loop, .loop,
      .reconnect 0, .create 1, .attach, .resume, .establish 1]
    (fun s ↦ decide ((s.xcs 0).freed = false ∧ (s.xcs 0).connected = true ∧ s.Unlocked 0 ∧
      (s.xcs 0).ctx = none)) (by decide)
  obtain ⟨hfreed, hconnected, hunlocked, hctx⟩ := of_decide_eq_true hlate
  refine ⟨s, Machine.Reachable.run (.start rfl) hrun, fun h ↦ ?_⟩
  obtain ⟨c, hc, _⟩ := h 0 hfreed hconnected hunlocked
  simp [hctx] at hc

end Client

end MuxHiredis
