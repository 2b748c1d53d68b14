import MuxHiredis.Mux.Client

/-!
# Tearing contexts down

`redisFree` ends a context, for a lost connection, for `client.free_ac_list` and in
`clearClient`.  The steps that begin such an end decide whether somebody still holds
the context then.
-/

namespace MuxHiredis

namespace Client

/-- Contexts are torn down at most once, and neither `xc->ctx` nor
`client.free_ac_list` holds one that was. -/
structure TornOnce (s : Client) : Prop where
  once : ∀ c, (s.conns c).torn ≤ 1
  ctx : ∀ x c, (s.xcs x).freed = false → (s.xcs x).ctx = some c → (s.conns c).torn = 0
  queue : ∀ c ∈ s.freeAcList, (s.conns c).torn = 0

/-- The condition on the events that end a context or queue it.  A connection ends, and
the event loop takes a queued context, only after the context's `xc` let go of it; a
connection may also be lost while the attempt that made it waits.  A connection that ends
is not queued.  `xRedisFree` is not called while the event loop takes the context down or
walks through `client.reconn_list` in `clearClient`, which begins when every queued context
was let go and no listed `xc` was freed. -/
def Released (s : Client) : Action → Prop
  | .fail c => s.LetGo c ∧ c ∉ s.freeAcList
  | .lose c => (s.LetGo c ∨ s.reconnect = .waiting (s.conns c).xc c) ∧ c ∉ s.freeAcList
  | .deal => ∀ c ∈ s.freeAcList.head?, s.LetGo c
  | .free x => ∀ c ∈ (s.xcs x).ctx, s.loop.target ≠ some c ∧ s.loop ≠ .clearingReconn
  | .clear => (∀ c ∈ s.freeAcList, s.LetGo c) ∧ ∀ x ∈ s.reconnList, (s.xcs x).freed = false
  | _ => True

instance (s : Client) : DecidablePred s.Released
  | .fail _ | .lose _ => inferInstanceAs (Decidable (_ ∧ _))
  | .deal => inferInstanceAs (Decidable (∀ c ∈ _, _))
  | .free _ => inferInstanceAs (Decidable (∀ c ∈ _, _ ∧ _))
  | .clear => inferInstanceAs (Decidable ((∀ c ∈ _, _) ∧ ∀ x ∈ _, _))
  | .connect _ _ | .wake _ | .reconnect _ | .create _ | .abandon | .attach | .resume | .remove
  | .establish _ | .loop | .unlist _ | .release _ | .stop => .isTrue trivial

/-- The attempt that made the context still waits, and will give it up. -/
def Awaits (s : Client) (c : ℕ) : Prop :=
  s.reconnect = .waiting (s.conns c).xc c ∧ (s.xcs (s.conns c).xc).connected = false ∧
    (s.conns c).status = 0

/-- What the event loop takes down is neither queued nor current. -/
def PartedAt (s : Client) : EventLoop → Prop
  | .losing c | .listing c => c ∉ s.freeAcList ∧ (s.LetGo c ∨ s.Awaits c)
  | .ending c => c ∉ s.freeAcList ∧ s.LetGo c
  | .clearingReconn =>
      (∀ c ∈ s.freeAcList, s.LetGo c) ∧
        ∀ x ∈ s.reconnList, ∀ c, (s.xcs x).ctx = some c →
          (s.conns c).torn = 0 ∧ c ∉ s.freeAcList
  | .clearingFree => ∀ c ∈ s.freeAcList, s.LetGo c
  | .idle | .quit => True

/-- What every step but a teardown keeps, and a teardown of what is `PartedAt`. -/
structure Whole (s : Client) : Prop where
  owns : s.Owns
  once : ∀ c, (s.conns c).torn ≤ 1
  ctx : ∀ x c, (s.xcs x).freed = false → (s.xcs x).ctx = some c → (s.conns c).torn = 0
  queue : ∀ c ∈ s.freeAcList, s.Live c
  target : ∀ c, s.loop.target = some c → s.Live c

theorem Whole.tornOnce {s : Client} (h : s.Whole) : s.TornOnce :=
  ⟨h.once, h.ctx, fun c hc ↦ (h.queue c hc).2⟩

/-- The `xc` holds no context that it did not hold before. -/
def Holds (s s' : Client) : Prop :=
  ∀ x c, (s'.xcs x).freed = false → (s'.xcs x).ctx = some c →
    (s.xcs x).freed = false ∧ (s.xcs x).ctx = some c

theorem Holds.of_update {s s' : Client} {x : ℕ} {xc : XContext}
    (hxcs : s'.xcs = Function.update s.xcs x xc)
    (hctx : xc.freed = false → (s.xcs x).freed = false ∧ (xc.ctx = (s.xcs x).ctx ∨ xc.ctx = none)) :
    s.Holds s' := by
  intro x' c hfreed hc
  rw [hxcs] at hfreed hc
  by_cases hx : x' = x
  · subst hx
    rw [Function.update_self] at hfreed hc
    obtain ⟨hfreed, hctx | hctx⟩ := hctx hfreed
    · exact ⟨hfreed, hctx ▸ hc⟩
    · simp [hctx] at hc
  · rw [Function.update_of_ne hx] at hfreed hc
    exact ⟨hfreed, hc⟩

theorem Whole.frame {s s' : Client} (h : s.Whole) (howns : s'.Owns)
    (hconns : ∀ c, (s'.conns c).made = (s.conns c).made ∧ (s'.conns c).torn = (s.conns c).torn)
    (hholds : s.Holds s') (hqueue : ∀ c ∈ s'.freeAcList, s.Live c)
    (htarget : ∀ c, s'.loop.target = some c → s.Live c) : s'.Whole := by
  have hlive : ∀ c, s.Live c → s'.Live c :=
    fun c ⟨hmade, htorn⟩ ↦ ⟨(hconns c).1.trans hmade, (hconns c).2.trans htorn⟩
  refine ⟨howns, fun c ↦ ?_, fun x c hfreed hc ↦ ?_, fun c hc ↦ hlive c (hqueue c hc),
    fun c hc ↦ hlive c (htarget c hc)⟩
  · rw [(hconns c).2]
    exact h.once c
  · obtain ⟨hfreed, hc⟩ := hholds x c hfreed hc
    rw [(hconns c).2]
    exact h.ctx x c hfreed hc

theorem Whole.frameConn {s s' : Client} (h : s.Whole) (howns : s'.Owns) {c : ℕ} {conn : Conn}
    (hconns : s'.conns = Function.update s.conns c conn) (hmade : conn.made = (s.conns c).made)
    (htorn : conn.torn = (s.conns c).torn) (hholds : s.Holds s')
    (hqueue : ∀ c ∈ s'.freeAcList, s.Live c)
    (htarget : ∀ c, s'.loop.target = some c → s.Live c) : s'.Whole := by
  refine h.frame howns (fun c' ↦ ?_) hholds hqueue htarget
  rw [hconns]
  exact update_kept (fun a b : Conn ↦ b.made = a.made ∧ b.torn = a.torn) (fun _ ↦ ⟨rfl, rfl⟩)
    ⟨hmade, htorn⟩ c'

theorem Whole.create {s s' : Client} (h : s.Whole) (howns : s'.Owns) {x c : ℕ} {xc : XContext}
    (hmade : (s.conns c).made = false) (hctx : xc.ctx = some c)
    (hconns : s'.conns = Function.update s.conns c (.create x))
    (hxcs : s'.xcs = Function.update s.xcs x xc) (hqueue : s'.freeAcList = s.freeAcList)
    (hloop : s'.loop = s.loop) : s'.Whole := by
  have hlive : ∀ c', s.Live c' → s'.Live c' := by
    intro c' hc'
    have hne : c' ≠ c := by
      rintro rfl
      simp [hc'.1] at hmade
    unfold Live
    rw [hconns, Function.update_of_ne hne]
    exact hc'
  refine ⟨howns, fun c' ↦ ?_, fun x' c' hfreed hc' ↦ ?_, fun c' hc' ↦ ?_, fun c' hc' ↦ ?_⟩
  · rw [hconns]
    by_cases hc : c' = c
    · subst hc
      simp [Conn.create]
    · rw [Function.update_of_ne hc]
      exact h.once c'
  · by_cases hx : x' = x
    · subst hx
      rw [hxcs, Function.update_self, hctx] at hc'
      obtain rfl := Option.some.inj hc'
      simp [hconns, Conn.create]
    · rw [hxcs, Function.update_of_ne hx] at hfreed hc'
      exact (hlive c' ⟨(h.owns x' c' hc').1, h.ctx x' c' hfreed hc'⟩).2
  · exact hlive c' (h.queue c' (hqueue ▸ hc'))
  · exact hlive c' (h.target c' (hloop ▸ hc'))

/-- A context that nobody holds is torn down. -/
theorem Whole.tear {s s' : Client} (h : s.Whole) (howns : s'.Owns) {c : ℕ} (hlive : s.Live c)
    (hconns : s'.conns = (s.tear c).conns) (hholds : s.Holds s')
    (hctx : ∀ x, (s'.xcs x).freed = false → (s'.xcs x).ctx ≠ some c)
    (hqueue : ∀ c' ∈ s'.freeAcList, c' ≠ c ∧ s.Live c') (htarget : s'.loop.target = none) :
    s'.Whole := by
  have hother : ∀ c', c' ≠ c → s'.conns c' = s.conns c' := fun c' hc' ↦ by
    rw [hconns, Client.tear, conns_setConn, Function.update_of_ne hc']
  refine ⟨howns, fun c' ↦ ?_, fun x c' hfreed hc' ↦ ?_, fun c' hc' ↦ ?_, fun c' hc' ↦ ?_⟩
  · by_cases hc : c' = c
    · subst hc
      simp [hconns, Client.tear, hlive.2]
    · rw [hother c' hc]
      exact h.once c'
  · have hne : c' ≠ c := by
      rintro rfl
      exact hctx x hfreed hc'
    obtain ⟨hfreed, hc'⟩ := hholds x c' hfreed hc'
    rw [hother c' hne]
    exact h.ctx x c' hfreed hc'
  · obtain ⟨hne, hlive'⟩ := hqueue c' hc'
    unfold Live
    rw [hother c' hne]
    exact hlive'
  · simp [htarget] at hc'

theorem Whole.stepLoop {s s' : Client} (h : s.Whole) (hparted : s.PartedAt s.loop)
    (hnodup : s.freeAcList.Nodup) (hstep : s.stepLoop = some s') : s'.Whole := by
  have howns : s'.Owns := h.owns.step (a := .loop) hstep
  obtain ⟨hconns, hxcs, hqueue, htarget⟩ | ⟨c, hloop, rfl⟩ | ⟨x, rest, s₁, hloop, hlist, rfl, hs₁⟩ |
    ⟨c, rest, hloop, hlist, rfl⟩ := stepLoop_cases hstep
  · exact h.frame howns (fun _ ↦ by simp [hconns]) (fun _ _ hfreed hc ↦ by
      rw [hxcs] at hfreed hc
      exact ⟨hfreed, hc⟩) (hqueue ▸ h.queue) (htarget ▸ h.target)
  · rw [hloop] at hparted
    obtain ⟨hout, hlet⟩ := hparted
    exact h.tear howns (h.target c (by rw [hloop]; rfl)) rfl (fun _ _ hfreed hc ↦ ⟨hfreed, hc⟩)
      (h.owns.ctx_ne hlet)
      (fun c' hc' ↦ ⟨fun hcc ↦ hout (hcc ▸ hc'), h.queue c' hc'⟩) rfl
  · rw [hloop] at hparted
    obtain ⟨-, hwalk⟩ := hparted
    have htarget : ∀ c, s.loop.target ≠ some c := by simp [hloop, EventLoop.target]
    obtain ⟨_, rfl⟩ | ⟨c, hctx, rfl⟩ := hs₁
    · exact h.frame howns (fun _ ↦ ⟨rfl, rfl⟩) (.of_update rfl (by simp)) h.queue
        fun c hc ↦ absurd hc (htarget c)
    · obtain ⟨htorn, hout⟩ := hwalk x (by simp [hlist]) c hctx
      refine h.tear howns ⟨(h.owns x c hctx).1, htorn⟩ rfl
        (.of_update rfl (by simp)) (fun x' hfreed' hc ↦ ?_)
        (fun c' hc' ↦ ⟨fun hcc ↦ hout (hcc ▸ hc'), h.queue c' hc'⟩)
        (by simp [Client.tear, hloop, EventLoop.target])
      by_cases hx : x' = x
      · subst hx
        simp at hfreed'
      · simp only [xcs_setXc, Client.tear, xcs_setConn, Function.update_of_ne hx] at hc
        exact hx ((h.owns x' c hc).2.symm.trans (h.owns x c hctx).2)
  · rw [hloop] at hparted
    have hrest : c ∉ rest := (List.nodup_cons.mp (hlist ▸ hnodup)).1
    refine h.tear howns (h.queue c (by simp [hlist])) rfl (fun _ _ hfreed hc ↦ ⟨hfreed, hc⟩)
      (h.owns.ctx_ne (hparted c (by simp [hlist])))
      (fun c' hc' ↦ ⟨fun hcc ↦ hrest (hcc ▸ hc'), h.queue c' (by simp [hlist, hc'])⟩)
      (by simp [Client.tear, hloop, EventLoop.target])

theorem Whole.step {s s' : Client} (h : s.Whole) {a : Action} (hparted : s.PartedAt s.loop)
    (hnodup : s.freeAcList.Nodup) (hstep : s.step a = some s') : s'.Whole := by
  have howns : s'.Owns := h.owns.step hstep
  cases step_cases hstep with
  | connect _ hmade =>
      exact h.create howns hmade rfl rfl rfl rfl rfl
  | reconnect =>
      exact h.frame howns (fun _ ↦ ⟨rfl, rfl⟩) (.of_update rfl fun hfreed ↦ ⟨hfreed, .inr rfl⟩)
        h.queue h.target
  | create _ hmade =>
      exact h.create howns hmade (by rfl) rfl rfl rfl rfl
  | abandon =>
      exact ⟨howns, h.once, h.ctx, h.queue, h.target⟩
  | wake =>
      refine h.frame howns (fun _ ↦ ⟨rfl, rfl⟩) (.of_update rfl fun hfreed ↦ ⟨?_, .inl rfl⟩)
        h.queue h.target
      exact (Bool.or_eq_false_iff.mp hfreed).1
  | attach =>
      exact ⟨howns, h.once, h.ctx, h.queue, h.target⟩
  | resumeUp _ _ =>
      exact ⟨howns, h.once, h.ctx, h.queue, h.target⟩
  | resumeDown _ _ =>
      exact h.frame howns (fun _ ↦ ⟨rfl, rfl⟩) (.of_update rfl fun hfreed ↦ ⟨hfreed, .inr rfl⟩)
        h.queue h.target
  | remove =>
      exact ⟨howns, h.once, h.ctx, h.queue, h.target⟩
  | establish =>
      exact h.frameConn howns rfl rfl rfl (.of_update rfl fun hfreed ↦ ⟨hfreed, .inl rfl⟩)
        h.queue h.target
  | fail hready _ =>
      refine h.frame howns (fun _ ↦ ⟨rfl, rfl⟩) (fun _ _ hfreed hc ↦ ⟨hfreed, hc⟩) h.queue ?_
      rintro _ ⟨⟩
      exact hready.2.1
  | lose hready _ =>
      refine h.frameConn howns rfl rfl rfl (.of_update rfl fun hfreed ↦ ⟨hfreed, .inl rfl⟩)
        h.queue ?_
      rintro _ ⟨⟩
      exact hready.2.1
  | @deal c _ hloop hlist =>
      refine h.frame howns (fun _ ↦ ⟨rfl, rfl⟩) (fun _ _ hfreed hc ↦ ⟨hfreed, hc⟩)
        (fun c' hc' ↦ h.queue c' (by simp [hlist, hc'])) ?_
      rintro _ ⟨⟩
      exact h.queue c (by simp [hlist])
  | loop _ => exact h.stepLoop hparted hnodup hstep
  | freeNone _ _ =>
      exact h.frame howns (fun _ ↦ ⟨rfl, rfl⟩) (.of_update rfl fun hfreed ↦ ⟨hfreed, .inl rfl⟩)
        h.queue h.target
  | @freeSome x c hfree hctx =>
      obtain ⟨_, hfreed, _⟩ := hfree
      refine h.frameConn howns rfl rfl rfl (.of_update rfl fun hfreed ↦ ⟨hfreed, .inl rfl⟩)
        (fun c' hc' ↦ ?_) h.target
      rcases List.mem_append.mp hc' with hc' | hc'
      · exact h.queue c' hc'
      · obtain rfl := List.mem_singleton.mp hc'
        exact ⟨(h.owns x c' hctx).1, h.ctx x c' hfreed hctx⟩
  | unlist =>
      exact h.frame howns (fun _ ↦ ⟨rfl, rfl⟩) (.of_update rfl fun hfreed ↦ ⟨hfreed, .inl rfl⟩)
        h.queue h.target
  | release =>
      exact h.frame howns (fun _ ↦ ⟨rfl, rfl⟩) (.of_update rfl (by simp)) h.queue h.target
  | stop =>
      exact ⟨howns, h.once, h.ctx, h.queue, h.target⟩
  | clear =>
      refine ⟨howns, h.once, h.ctx, h.queue, ?_⟩
      rintro _ ⟨⟩

theorem fresh_whole : fresh.Whole where
  owns := fresh_owns
  once := fun _ ↦ by simp [fresh, Conn.absent]
  ctx := fun x c _ hc ↦ by simp [fresh, XContext.absent] at hc
  queue := fun c hc ↦ by simp [fresh] at hc
  target := fun c hc ↦ by simp [fresh, EventLoop.target] at hc

/-- A context has a made `xc`, and so have every entry of `client.reconn_list` and an
attempt that is to make its context. -/
structure Homed (s : Client) : Prop where
  home : ∀ c, (s.conns c).made = true → (s.xcs (s.conns c).xc).made = true
  listed : ∀ x ∈ s.reconnList, (s.xcs x).made = true
  creating : ∀ x, s.reconnect = .creating x → (s.xcs x).made = true

theorem Homed.frame {s s' : Client} (h : s.Homed)
    (hconns : ∀ c, (s'.conns c).made = (s.conns c).made ∧ (s'.conns c).xc = (s.conns c).xc)
    (hxcs : ∀ x, (s.xcs x).made = true → (s'.xcs x).made = true)
    (hlist : ∀ x ∈ s'.reconnList, x ∈ s.reconnList)
    (hcreating : ∀ x, s'.reconnect = .creating x → s.reconnect = .creating x) : s'.Homed := by
  refine ⟨fun c hmade ↦ ?_, fun x hx ↦ hxcs x (h.listed x (hlist x hx)),
    fun x hat ↦ hxcs x (h.creating x (hcreating x hat))⟩
  obtain ⟨hmade', hxc⟩ := hconns c
  rw [hxc]
  exact hxcs _ (h.home c (hmade' ▸ hmade))

theorem Homed.create {s s' : Client} (h : s.Homed) {x c : ℕ} {xc : XContext}
    (hmade : xc.made = true) (hconns : s'.conns = Function.update s.conns c (.create x))
    (hxcs : s'.xcs = Function.update s.xcs x xc) (hlist : s'.reconnList = s.reconnList)
    (hcreating : ∀ x, s'.reconnect = .creating x → s.reconnect = .creating x) : s'.Homed := by
  have hkeeps : ∀ x', (s.xcs x').made = true → (s'.xcs x').made = true := by
    intro x' hx'
    by_cases hx : x' = x
    · simp [hxcs, hx, hmade]
    · simpa [hxcs, hx] using hx'
  refine ⟨fun c' hmade' ↦ ?_, fun x' hx' ↦ hkeeps x' (h.listed x' (hlist ▸ hx')),
    fun x' hat ↦ hkeeps x' (h.creating x' (hcreating x' hat))⟩
  by_cases hc : c' = c
  · simp [hconns, hxcs, hc, Conn.create, hmade]
  · rw [hconns, Function.update_of_ne hc] at hmade' ⊢
    exact hkeeps _ (h.home c' hmade')

theorem made_update {xcs : ℕ → XContext} {x : ℕ} {xc : XContext} (h : xc.made = (xcs x).made)
    (x' : ℕ) (hx' : (xcs x').made = true) : (Function.update xcs x xc x').made = true :=
  (update_kept (fun a b : XContext ↦ b.made = a.made) (fun _ ↦ rfl) h x').trans hx'

theorem origin_update {conns : ℕ → Conn} {c : ℕ} {conn : Conn} (hmade : conn.made = (conns c).made)
    (hxc : conn.xc = (conns c).xc) (c' : ℕ) :
    (Function.update conns c conn c').made = (conns c').made ∧
      (Function.update conns c conn c').xc = (conns c').xc :=
  update_kept (fun a b : Conn ↦ b.made = a.made ∧ b.xc = a.xc) (fun _ ↦ ⟨rfl, rfl⟩) ⟨hmade, hxc⟩ c'

theorem Homed.stepLoop {s s' : Client} (h : s.Homed)
    (htarget : ∀ c, s.loop.target = some c → s.Live c) (hstep : s.stepLoop = some s') :
    s'.Homed := by
  cases loopStep_cases hstep with
  | lostFreed | lost | clearedReconn | clearedFree => exact ⟨h.home, h.listed, h.creating⟩
  | @list c hl _ =>
      refine ⟨h.home, fun x hx ↦ ?_, h.creating⟩
      split at hx
      · exact h.listed x hx
      · rcases List.mem_append.mp hx with hx | hx
        · exact h.listed x hx
        · obtain rfl := List.mem_singleton.mp hx
          exact h.home c (htarget c (by rw [hl]; rfl)).1
  | ended | clearFree =>
      exact h.frame (origin_update rfl rfl) (fun _ ↦ id) (fun _ ↦ id) fun _ ↦ id
  | clearNone hl hlist hctx =>
      exact h.frame (fun _ ↦ ⟨rfl, rfl⟩) (made_update rfl) (fun _ hx ↦ by simp [hlist, hx])
        fun _ ↦ id
  | clearSome hl hlist hctx =>
      exact h.frame (origin_update rfl rfl) (made_update rfl) (fun _ hx ↦ by simp [hlist, hx])
        fun _ ↦ id

theorem Homed.step {s s' : Client} (h : s.Homed) {a : Action}
    (htarget : ∀ c, s.loop.target = some c → s.Live c) (hstep : s.step a = some s') :
    s'.Homed := by
  cases step_cases hstep with
  | connect => exact h.create rfl rfl rfl rfl fun _ ↦ id
  | @reconnect x hlist =>
      have hkeeps : ∀ x', (s.xcs x').made = true →
          (Function.update s.xcs x { s.xcs x with ctx := none } x').made = true := made_update rfl
      refine ⟨fun c hmade ↦ hkeeps _ (h.home c hmade), fun x' hx' ↦ hkeeps x' (h.listed x' hx'),
        fun x' hat ↦ hkeeps x' ?_⟩
      obtain rfl := ReconnectThread.creating.inj hat
      exact h.listed x hlist
  | @create x _ hat =>
      refine h.create ?_ rfl rfl rfl (by simp)
      exact h.creating x hat
  | wake | freeNone | release =>
      exact h.frame (fun _ ↦ ⟨rfl, rfl⟩) (made_update rfl) (fun _ ↦ id) fun _ ↦ id
  | resumeDown =>
      exact h.frame (fun _ ↦ ⟨rfl, rfl⟩) (made_update rfl) (fun _ ↦ id) (by simp)
  | fail | deal | stop | clear => exact ⟨h.home, h.listed, h.creating⟩
  | abandon | attach | resumeUp => exact ⟨h.home, h.listed, by simp⟩
  | remove => exact ⟨h.home, fun x hx ↦ h.listed x (List.mem_of_mem_erase hx), by simp⟩
  | establish | lose | freeSome =>
      exact h.frame (origin_update rfl rfl) (made_update rfl) (fun _ ↦ id) fun _ ↦ id
  | loop hloop => exact h.stepLoop htarget hloop
  | unlist =>
      exact h.frame (fun _ ↦ ⟨rfl, rfl⟩) (made_update rfl) (fun _ ↦ List.mem_of_mem_erase)
        fun _ ↦ id

/-- The context of the attempt that is under way is its `xc`'s. -/
structure Attempting (s : Client) : Prop where
  ctx : ∀ x c, s.reconnect = .attaching x c ∨ s.reconnect = .waiting x c →
    (s.xcs x).ctx = some c
  idle : s.loop = .clearingReconn → s.reconnect = .idle

theorem Attempting.frame {s s' : Client} (h : s.Attempting)
    (hreconnect : s'.reconnect = s.reconnect)
    (hctx : ∀ x, (s.xcs x).ctx ≠ none → (s'.xcs x).ctx = (s.xcs x).ctx)
    (hloop : s'.loop = .clearingReconn → s.loop = .clearingReconn) : s'.Attempting := by
  refine ⟨fun x c hat ↦ ?_, fun hl ↦ hreconnect ▸ h.idle (hloop hl)⟩
  have hold := h.ctx x c (hreconnect ▸ hat)
  rw [hctx x (by simp [hold]), hold]

theorem Attempting.of_idle {s : Client} (h : s.reconnect = .idle) : s.Attempting :=
  ⟨fun x c hat ↦ by simp [h] at hat, fun _ ↦ h⟩

theorem ctx_update_eq {xcs : ℕ → XContext} {x : ℕ} {xc : XContext} (h : xc.ctx = (xcs x).ctx)
    (x' : ℕ) (_ : (xcs x').ctx ≠ none) : (Function.update xcs x xc x').ctx = (xcs x').ctx :=
  update_kept (fun a b : XContext ↦ b.ctx = a.ctx) (fun _ ↦ rfl) h x'

theorem Attempting.step {s s' : Client} (h : s.Attempting) (howns : s.Owns) (hhomed : s.Homed)
    {a : Action} (hstep : s.step a = some s') : s'.Attempting := by
  cases step_cases hstep with
  | @connect x c hx hc =>
      refine h.frame rfl (fun x' hx' ↦ ?_) id
      have hne : x' ≠ x := by
        rintro rfl
        obtain ⟨c', hc'⟩ := Option.ne_none_iff_exists'.mp hx'
        obtain ⟨hmade, rfl⟩ := howns x' c' hc'
        simp [hhomed.home c' hmade] at hx
      simp [hne]
  | reconnect _ _ hl => exact ⟨fun x' c' hat ↦ by simp at hat, fun hl' ↦ absurd hl' hl⟩
  | @create x c hat _ =>
      refine ⟨?_, fun hl ↦ ?_⟩
      · rintro x' c' (hat' | hat')
        · obtain ⟨rfl, rfl⟩ := ReconnectThread.attaching.inj hat'
          simp
        · simp at hat'
      · simp [h.idle hl] at hat
  | wake | freeNone | unlist | release =>
      exact h.frame rfl (ctx_update_eq rfl) id
  | @attach x c hat =>
      refine ⟨?_, fun hl ↦ ?_⟩
      · rintro x' c' (hat' | hat')
        · simp at hat'
        · obtain ⟨rfl, rfl⟩ := ReconnectThread.waiting.inj hat'
          exact h.ctx x c (.inl hat)
      · simp [h.idle hl] at hat
  | resumeUp hat _ =>
      refine ⟨fun x' c' hat' ↦ by simp at hat', fun hl ↦ ?_⟩
      simp [h.idle hl] at hat
  | abandon | resumeDown | remove => exact .of_idle rfl
  | establish => exact h.frame rfl (ctx_update_eq rfl) id
  | fail => exact h.frame rfl (fun _ _ ↦ rfl) (by simp)
  | lose => exact h.frame rfl (ctx_update_eq rfl) (by simp)
  | deal => exact h.frame rfl (fun _ _ ↦ rfl) (by simp)
  | loop hloop =>
      cases loopStep_cases hloop with
      | lostFreed | lost | list | ended | clearedReconn | clearedFree | clearFree =>
          refine h.frame rfl (fun _ _ ↦ rfl) fun hl' ↦ ?_
          simp_all [tear]
      | clearNone hl | clearSome hl => exact .of_idle (h.idle hl)
  | freeSome => exact h.frame rfl (ctx_update_eq rfl) id
  | stop => exact ⟨h.ctx, h.idle⟩
  | clear _ _ hidle => exact .of_idle hidle

/-- A context whose `status` is not 0 was queued by `xRedisFree`, and only once. -/
structure Marked (s : Client) : Prop where
  marked : ∀ c ∈ s.freeAcList, (s.conns c).status = freedContext
  queued : ∀ c, (s.conns c).status ≠ 0 →
    (s.conns c).made = true ∧ (s.xcs (s.conns c).xc).leaving ≠ .no ∧
      (c ∈ s.freeAcList ∨ (s.conns c).torn ≠ 0 ∨ s.loop.target = some c)
  nodup : s.freeAcList.Nodup

theorem Marked.frame {s s' : Client} (h : s.Marked) (hqueue : s'.freeAcList = s.freeAcList)
    (hconns : ∀ c, s'.conns c = s.conns c ∨
      (s'.conns c).status = (s.conns c).status ∧ (s'.conns c).made = (s.conns c).made ∧
        (s'.conns c).xc = (s.conns c).xc ∧ (s.conns c).torn ≤ (s'.conns c).torn)
    (hxcs : ∀ x, (s'.xcs x).leaving = .no → (s.xcs x).leaving = .no)
    (htarget : ∀ c, s.loop.target = some c → s'.loop.target = some c ∨ (s'.conns c).torn ≠ 0) :
    s'.Marked := by
  have hkeeps : ∀ c, (s'.conns c).status = (s.conns c).status ∧
      (s'.conns c).made = (s.conns c).made ∧ (s'.conns c).xc = (s.conns c).xc ∧
      (s.conns c).torn ≤ (s'.conns c).torn := by
    intro c
    rcases hconns c with hc | hc
    · simp [hc]
    · exact hc
  refine ⟨fun c hc ↦ ?_, fun c hstatus ↦ ?_, hqueue ▸ h.nodup⟩
  · rw [(hkeeps c).1]
    exact h.marked c (hqueue ▸ hc)
  · obtain ⟨hsame, hmade, hxc, htorn⟩ := hkeeps c
    obtain ⟨hmade', hleaving, hplace⟩ := h.queued c (hsame ▸ hstatus)
    refine ⟨hmade.trans hmade', fun hno ↦ hleaving (hxcs _ (hxc ▸ hno)), ?_⟩
    rcases hplace with hin | htorn' | hat
    · exact .inl (hqueue ▸ hin)
    · exact .inr (.inl (by omega))
    · exact .inr ((htarget c hat).symm)

theorem freedContext_ne_zero : freedContext ≠ 0 := by decide

theorem conns_update {conns : ℕ → Conn} {c : ℕ} {conn : Conn}
    (h : conn.status = (conns c).status ∧ conn.made = (conns c).made ∧ conn.xc = (conns c).xc ∧
      (conns c).torn ≤ conn.torn) (c' : ℕ) :
    Function.update conns c conn c' = conns c' ∨
      (Function.update conns c conn c').status = (conns c').status ∧
        (Function.update conns c conn c').made = (conns c').made ∧
        (Function.update conns c conn c').xc = (conns c').xc ∧
        (conns c').torn ≤ (Function.update conns c conn c').torn :=
  update_kept (fun a b : Conn ↦ b = a ∨ b.status = a.status ∧ b.made = a.made ∧ b.xc = a.xc ∧
    a.torn ≤ b.torn) (fun _ ↦ .inl rfl) (.inr h) c'

theorem leaving_update {xcs : ℕ → XContext} {x : ℕ} {xc : XContext}
    (h : xc.leaving = .no → (xcs x).leaving = .no) (x' : ℕ)
    (hx' : (Function.update xcs x xc x').leaving = .no) : (xcs x').leaving = .no :=
  update_kept (fun a b : XContext ↦ b.leaving = .no → a.leaving = .no) (fun _ ↦ id) h x' hx'

theorem Marked.create {s s' : Client} (h : s.Marked) {x c : ℕ}
    (hmade : (s.conns c).made = false) (hconns : s'.conns = Function.update s.conns c (.create x))
    (hxcs : ∀ x, (s.xcs x).made = true → (s'.xcs x).leaving = (s.xcs x).leaving)
    (hhomed : s.Homed) (hqueue : s'.freeAcList = s.freeAcList) (hloop : s'.loop = s.loop) :
    s'.Marked := by
  have hother : ∀ c', (s.conns c').status ≠ 0 → s'.conns c' = s.conns c' := by
    intro c' hstatus
    have hc : c' ≠ c := by
      rintro rfl
      simp [(h.queued c' hstatus).1] at hmade
    rw [hconns, Function.update_of_ne hc]
  refine ⟨fun c' hc' ↦ ?_, fun c' hstatus ↦ ?_, hqueue ▸ h.nodup⟩
  · have hmarked := h.marked c' (hqueue ▸ hc')
    rw [hother c' (hmarked ▸ freedContext_ne_zero), hmarked]
  · have hstatus' : (s.conns c').status ≠ 0 := by
      intro hzero
      refine hstatus ?_
      rw [hconns]
      by_cases hc : c' = c
      · simp [hc, Conn.create]
      · simpa [hc] using hzero
    obtain ⟨hmade', hleaving, hplace⟩ := h.queued c' hstatus'
    rw [hother c' hstatus', hxcs _ (hhomed.home c' hmade'), hqueue, hloop]
    exact ⟨hmade', hleaving, hplace⟩

/-- The first queued context is taken from the list. -/
theorem Marked.take {s s' : Client} (h : s.Marked) {c : ℕ} {rest : List ℕ}
    (hlist : s.freeAcList = c :: rest) (hqueue : s'.freeAcList = rest)
    (hconns : ∀ c', s'.conns c' = s.conns c' ∨
      (s'.conns c').status = (s.conns c').status ∧ (s'.conns c').made = (s.conns c').made ∧
        (s'.conns c').xc = (s.conns c').xc ∧ (s.conns c').torn ≤ (s'.conns c').torn)
    (hxcs : s'.xcs = s.xcs) (hold : s.loop.target = none)
    (hnew : s'.loop.target = some c ∨ (s'.conns c).torn ≠ 0) : s'.Marked := by
  have hkeeps : ∀ c', (s'.conns c').status = (s.conns c').status ∧
      (s'.conns c').made = (s.conns c').made ∧ (s'.conns c').xc = (s.conns c').xc ∧
      (s.conns c').torn ≤ (s'.conns c').torn := by
    intro c'
    rcases hconns c' with hc | hc
    · simp [hc]
    · exact hc
  refine ⟨fun c' hc' ↦ ?_, fun c' hstatus ↦ ?_, ?_⟩
  · rw [(hkeeps c').1]
    exact h.marked c' (by simp [hlist, ← hqueue, hc'])
  · obtain ⟨hsame, hmade, hxc, htorn⟩ := hkeeps c'
    obtain ⟨hmade', hleaving, hplace⟩ := h.queued c' (hsame ▸ hstatus)
    rw [hmade, hxc, hxcs, hqueue]
    refine ⟨hmade', hleaving, ?_⟩
    rcases hplace with hin | htorn' | hat
    · rcases List.mem_cons.mp (hlist ▸ hin) with rfl | hin
      · exact .inr hnew.symm
      · exact .inl hin
    · exact .inr (.inl (by omega))
    · simp [hold] at hat
  · exact hqueue ▸ (List.nodup_cons.mp (hlist ▸ h.nodup)).2

/-- `xRedisFree` queues the context of an `xc` that nobody frees yet. -/
theorem Marked.free {s : Client} (h : s.Marked) (howns : s.Owns) {x c : ℕ}
    (hno : (s.xcs x).leaving = .no) (hctx : (s.xcs x).ctx = some c) :
    Marked { (s.setConn c { s.conns c with status := (s.conns c).status + freedContext }).setXc x
      { s.xcs x with leaving := .queued } with freeAcList := s.freeAcList ++ [c] } := by
  obtain ⟨hmade, hxc⟩ := howns x c hctx
  have hzero : (s.conns c).status = 0 := by
    by_contra hstatus
    exact (h.queued c hstatus).2.1 (hxc ▸ hno)
  have hout : c ∉ s.freeAcList := fun hin ↦
    freedContext_ne_zero ((h.marked c hin).symm.trans hzero)
  refine ⟨fun c' hc' ↦ ?_, fun c' hstatus ↦ ?_, ?_⟩
  · by_cases hc : c' = c
    · simp [hc, hzero]
    · have hin : c' ∈ s.freeAcList := by simpa [hc] using hc'
      simpa [hc] using h.marked c' hin
  · by_cases hc : c' = c
    · simp [hc, hmade, hxc]
    · simp only [conns_setXc, conns_setConn, Function.update_of_ne hc, xcs_setXc,
        xcs_setConn] at hstatus ⊢
      obtain ⟨hmade', hleaving, hplace⟩ := h.queued c' hstatus
      refine ⟨hmade', fun hno' ↦ hleaving (leaving_update (by simp) _ hno'), ?_⟩
      exact hplace.imp_left fun hin ↦ by simp [hin]
  · exact List.nodup_append.mpr ⟨h.nodup, by simp, by
      rintro a ha b hb rfl
      exact hout (List.mem_singleton.mp hb ▸ ha)⟩

theorem Marked.stepLoop {s s' : Client} (h : s.Marked) (hstep : s.stepLoop = some s') :
    s'.Marked := by
  cases loopStep_cases hstep with
  | lostFreed hl | lost hl | list hl =>
      exact h.frame rfl (fun _ ↦ .inl rfl) (fun _ ↦ id) fun c hc ↦ .inl (by rw [hl] at hc; exact hc)
  | @ended c hl =>
      refine h.frame rfl (conns_update ⟨rfl, rfl, rfl, Nat.le_succ _⟩) (fun _ ↦ id) fun c' hc' ↦ ?_
      obtain rfl : c = c' := by simpa [hl, EventLoop.target] using hc'
      exact .inr (by simp [tear])
  | clearedReconn hl | clearedFree hl =>
      exact h.frame rfl (fun _ ↦ .inl rfl) (fun _ ↦ id) (by simp [hl, EventLoop.target])
  | clearNone hl =>
      exact h.frame rfl (fun _ ↦ .inl rfl) (leaving_update id) (by simp [hl, EventLoop.target])
  | clearSome hl =>
      exact h.frame rfl (conns_update ⟨rfl, rfl, rfl, Nat.le_succ _⟩) (leaving_update id)
        (by simp [hl, EventLoop.target])
  | clearFree hl hlist =>
      exact h.take hlist rfl (conns_update ⟨rfl, rfl, rfl, Nat.le_succ _⟩) rfl
        (by simp [hl, EventLoop.target]) (.inr (by simp [tear]))

theorem Marked.step {s s' : Client} (h : s.Marked) (howns : s.Owns) (hhomed : s.Homed)
    {a : Action} (hstep : s.step a = some s') : s'.Marked := by
  cases step_cases hstep with
  | @connect x c hx hc =>
      refine h.create hc rfl (fun x' hx' ↦ ?_) hhomed rfl rfl
      have hne : x' ≠ x := by
        rintro rfl
        simp [hx] at hx'
      simp [hne]
  | @create x c _ hc =>
      refine h.create hc rfl (fun x' _ ↦ ?_) hhomed rfl rfl
      by_cases hne : x' = x
      · simp [hne]
      · simp [hne]
  | reconnect | wake | resumeDown =>
      exact h.frame rfl (fun _ ↦ .inl rfl) (leaving_update id) fun _ ↦ .inl
  | freeNone | unlist =>
      exact h.frame rfl (fun _ ↦ .inl rfl) (leaving_update (by simp)) fun _ ↦ .inl
  | release =>
      exact h.frame rfl (fun _ ↦ .inl rfl) (leaving_update id) fun _ ↦ .inl
  | abandon | attach | resumeUp | remove | stop =>
      exact h.frame rfl (fun _ ↦ .inl rfl) (fun _ ↦ id) fun _ ↦ .inl
  | establish =>
      exact h.frame rfl (conns_update ⟨rfl, rfl, rfl, Nat.le_refl _⟩) (leaving_update id)
        fun _ ↦ .inl
  | fail hready =>
      exact h.frame rfl (fun _ ↦ .inl rfl) (fun _ ↦ id) (by simp [hready.1, EventLoop.target])
  | lose hready =>
      exact h.frame rfl (conns_update ⟨rfl, rfl, rfl, Nat.le_refl _⟩) (leaving_update id)
        (by simp [hready.1, EventLoop.target])
  | deal hidle hlist =>
      exact h.take hlist rfl (fun _ ↦ .inl rfl) rfl (by simp [hidle, EventLoop.target]) (.inl rfl)
  | loop hloop => exact h.stepLoop hloop
  | freeSome hfree hctx => exact h.free howns hfree.2.2.2.1 hctx
  | clear hidle =>
      exact h.frame rfl (fun _ ↦ .inl rfl) (fun _ ↦ id) (by simp [hidle, EventLoop.target])

theorem LetGo.mono {s s' : Client} {c : ℕ} (h : s.LetGo c)
    (hxc : (s'.conns c).xc = (s.conns c).xc)
    (hholds : ∀ x, (s'.xcs x).freed = false → (s'.xcs x).ctx = some c →
      (s.xcs x).freed = false ∧ (s.xcs x).ctx = some c) : s'.LetGo c := by
  unfold LetGo
  rw [hxc, or_iff_not_imp_left, Bool.not_eq_true]
  intro hfreed hctx
  obtain ⟨hfreed, hctx⟩ := hholds _ hfreed hctx
  exact h.elim (by simp [hfreed]) fun hne ↦ hne hctx

theorem LetGo.update {s s' : Client} {c c₀ : ℕ} {conn : Conn} (h : s.LetGo c)
    (hconns : s'.conns = Function.update s.conns c₀ conn) (hxc : conn.xc = (s.conns c₀).xc)
    (hholds : s.Holds s') : s'.LetGo c := by
  refine h.mono ?_ fun x ↦ hholds x c
  rw [hconns]
  by_cases hc : c = c₀
  · simp [hc, hxc]
  · rw [Function.update_of_ne hc]

theorem PartedAt.frame {s s' : Client} {l : EventLoop} (h : s.PartedAt l)
    (hqueue : s'.freeAcList = s.freeAcList)
    (hlet : ∀ c, c ∈ s.freeAcList ∨ l.target = some c → s.LetGo c → s'.LetGo c)
    (hawaits : ∀ c, l.target = some c → s.Awaits c → s'.LetGo c ∨ s'.Awaits c)
    (hwalk : l = .clearingReconn → ∀ x ∈ s'.reconnList, ∀ c, (s'.xcs x).ctx = some c →
      x ∈ s.reconnList ∧ (s.xcs x).ctx = some c ∧ (s'.conns c).torn = (s.conns c).torn) :
    s'.PartedAt l := by
  cases l with
  | idle | quit => trivial
  | losing c | listing c =>
      obtain ⟨hout, hpart⟩ := h
      exact ⟨hqueue ▸ hout, hpart.elim (fun hl ↦ .inl (hlet c (.inr rfl) hl)) (hawaits c rfl)⟩
  | ending c =>
      obtain ⟨hout, hl⟩ := h
      exact ⟨hqueue ▸ hout, hlet c (.inr rfl) hl⟩
  | clearingReconn =>
      obtain ⟨hall, hlist⟩ := h
      refine ⟨fun c hc ↦ hlet c (.inl (hqueue ▸ hc)) (hall c (hqueue ▸ hc)), fun x hx c hctx ↦ ?_⟩
      obtain ⟨hx, hctx, htorn⟩ := hwalk rfl x hx c hctx
      rw [htorn, hqueue]
      exact hlist x hx c hctx
  | clearingFree =>
      exact fun c hc ↦ hlet c (.inl (hqueue ▸ hc)) (h c (hqueue ▸ hc))

/-- What the runs that meet `Released` keep. -/
structure Parted (s : Client) : Prop where
  whole : s.Whole
  homed : s.Homed
  marked : s.Marked
  parted : s.PartedAt s.loop

theorem Parted.frameAt {s s' : Client} (h : s.Parted) (hqueue : s'.freeAcList = s.freeAcList)
    (hloop : s'.loop = s.loop) (hxc : ∀ c, s.Live c → (s'.conns c).xc = (s.conns c).xc)
    (hholds : ∀ x c, s.Live c → (s'.xcs x).freed = false → (s'.xcs x).ctx = some c →
      (s.xcs x).freed = false ∧ (s.xcs x).ctx = some c)
    (hawaits : ∀ c, s.loop.target = some c → s.Awaits c → s'.LetGo c ∨ s'.Awaits c)
    (hwalk : s.loop = .clearingReconn → ∀ x ∈ s'.reconnList, ∀ c, (s'.xcs x).ctx = some c →
      x ∈ s.reconnList ∧ (s.xcs x).ctx = some c ∧ (s'.conns c).torn = (s.conns c).torn) :
    s'.PartedAt s'.loop := by
  rw [hloop]
  refine h.parted.frame hqueue (fun c hc hl ↦ ?_) hawaits hwalk
  have hlive : s.Live c := hc.elim (h.whole.queue c) (h.whole.target c)
  exact hl.mono (hxc c hlive) fun x ↦ hholds x c hlive

theorem Parted.frameConn {s s' : Client} (h : s.Parted) (hqueue : s'.freeAcList = s.freeAcList)
    (hlist : ∀ x ∈ s'.reconnList, x ∈ s.reconnList) (hloop : s'.loop = s.loop)
    (hconns : s'.conns = s.conns) (hholds : s.Holds s')
    (hctx : ∀ x c, (s'.xcs x).ctx = some c → (s.xcs x).ctx = some c)
    (hawaits : ∀ c, s.loop.target = some c → s.Awaits c → s'.LetGo c ∨ s'.Awaits c) :
    s'.PartedAt s'.loop := by
  refine h.frameAt hqueue hloop (fun c _ ↦ by rw [hconns]) (fun x c _ ↦ hholds x c) hawaits ?_
  intro _ x hx c hc
  exact ⟨hlist x hx, hctx x c hc, by rw [hconns]⟩

theorem Awaits.waiting {s : Client} {c : ℕ} (h : s.Awaits c) : ∃ x, s.reconnect = .waiting x c :=
  ⟨_, h.1⟩

theorem connected_update {xcs : ℕ → XContext} {x : ℕ} {xc : XContext}
    (h : xc.connected = (xcs x).connected) (x' : ℕ) :
    (Function.update xcs x xc x').connected = (xcs x').connected :=
  update_kept (fun a b : XContext ↦ b.connected = a.connected) (fun _ ↦ rfl) h x'

/-- A step that leaves the attempt alone, and a change to one `xc` that holds no other
context than before. -/
theorem Parted.frameXc {s s' : Client} (h : s.Parted) (hqueue : s'.freeAcList = s.freeAcList)
    (hlist : ∀ x ∈ s'.reconnList, x ∈ s.reconnList) (hloop : s'.loop = s.loop)
    (hreconnect : s'.reconnect = s.reconnect) (hconns : s'.conns = s.conns) {x : ℕ} {xc : XContext}
    (hxcs : s'.xcs = Function.update s.xcs x xc) (hctx : xc.ctx = (s.xcs x).ctx)
    (hfreed : xc.freed = false → (s.xcs x).freed = false)
    (hconnected : xc.connected = (s.xcs x).connected) : s'.PartedAt s'.loop := by
  refine h.frameConn hqueue hlist hloop hconns
    (.of_update hxcs fun hf ↦ ⟨hfreed hf, .inl hctx⟩) ?_ fun c _ hawaits ↦ .inr ?_
  · rw [hxcs]
    exact ctx_update (.inl hctx)
  · unfold Awaits
    rw [hreconnect, hconns, hxcs, connected_update hconnected]
    exact hawaits

theorem Parted.create {s s' : Client} (h : s.Parted) {x c : ℕ} {xc : XContext}
    (hmade : (s.conns c).made = false) (hctx : xc.ctx = some c)
    (hconns : s'.conns = Function.update s.conns c (.create x))
    (hxcs : s'.xcs = Function.update s.xcs x xc) (hqueue : s'.freeAcList = s.freeAcList)
    (hlist : s'.reconnList = s.reconnList) (hloop : s'.loop = s.loop)
    (hwalk : s.loop = .clearingReconn → x ∉ s.reconnList)
    (hawaits : ∀ c', s.loop.target = some c' → s.Awaits c' → s'.Awaits c') :
    s'.PartedAt s'.loop := by
  have hother : ∀ c', (s.conns c').made = true → c' ≠ c := by
    rintro c' hmade' rfl
    simp [hmade] at hmade'
  refine h.frameAt hqueue hloop (fun c' hlive ↦ ?_) (fun x' c' hlive hfreed hc' ↦ ?_)
    (fun c' htarget ha ↦ .inr (hawaits c' htarget ha)) fun hl x' hx' c' hc' ↦ ?_
  · rw [hconns, Function.update_of_ne (hother c' hlive.1)]
  · by_cases hx : x' = x
    · subst hx
      rw [hxcs, Function.update_self, hctx] at hc'
      exact absurd (Option.some.inj hc').symm (hother c' hlive.1)
    · rw [hxcs, Function.update_of_ne hx] at hfreed hc'
      exact ⟨hfreed, hc'⟩
  · rw [hlist] at hx'
    have hx : x' ≠ x := by
      rintro rfl
      exact hwalk hl hx'
    rw [hxcs, Function.update_of_ne hx] at hc'
    have hne : c' ≠ c := hother c' (h.whole.owns x' c' hc').1
    exact ⟨hx', hc', by rw [hconns, Function.update_of_ne hne]⟩

theorem Parted.stepLoop {s s' : Client} (h : s.Parted) (hstep : s.stepLoop = some s') :
    s'.PartedAt s'.loop := by
  have hparted := h.parted
  cases loopStep_cases hstep with
  | lostFreed hl hstatus =>
      rw [hl] at hparted
      obtain ⟨hout, hlet | hawaits⟩ := hparted
      · exact ⟨hout, hlet⟩
      · exact absurd (hstatus.symm.trans hawaits.2.2) freedContext_ne_zero
  | lost hl _ =>
      rw [hl] at hparted
      exact hparted
  | list hl hidle =>
      rw [hl] at hparted
      obtain ⟨hout, hlet | hawaits⟩ := hparted
      · exact ⟨hout, hlet⟩
      · obtain ⟨x, hat⟩ := hawaits.waiting
        simp [hidle] at hat
  | ended | clearedFree => trivial
  | clearedReconn hl _ =>
      rw [hl] at hparted
      exact hparted.1
  | @clearNone x rest hl hlist hctx =>
      let s' : Client :=
        { s.setXc x { s.xcs x with ctx := none, freed := true } with reconnList := rest }
      have hframe : s'.PartedAt s'.loop :=
        h.frameConn rfl (fun _ hx ↦ hlist ▸ List.mem_cons_of_mem x hx) rfl rfl
          (.of_update rfl (by simp)) (ctx_update (.inr rfl)) (by simp [hl, EventLoop.target])
      exact hframe
  | @clearSome x c rest hl hlist hctx =>
      rw [hl] at hparted
      obtain ⟨hall, hwalk⟩ := hparted
      have hkeeps : ∀ x' c', (Function.update s.xcs x
          { s.xcs x with ctx := none, freed := true } x').ctx = some c' →
          (s.xcs x').ctx = some c' ∧ c' ≠ c := by
        intro x' c' hc'
        refine ⟨ctx_update (.inr rfl) x' c' hc', ?_⟩
        rintro rfl
        obtain rfl : x' = x :=
          (h.whole.owns x' c' (ctx_update (.inr rfl) x' c' hc')).2.symm.trans
            (h.whole.owns x c' hctx).2
        simp at hc'
      simp only [loop_setXc, tear, loop_setConn, hl]
      refine ⟨fun c' hc' ↦ (hall c' hc').update rfl rfl (.of_update rfl (by simp)),
        fun x' hx' c' hc' ↦ ?_⟩
      · obtain ⟨hc', hne⟩ := hkeeps x' c' hc'
        have hx : x' ∈ s.reconnList := by simp [hlist, hx']
        simpa [hne] using hwalk x' hx c' hc'
  | @clearFree c rest hl hlist =>
      rw [hl] at hparted
      simp only [tear, loop_setConn, hl]
      exact fun c' hc' ↦ (hparted c' (by simp [hlist, hc'])).update rfl rfl
        fun _ _ hfreed hc ↦ ⟨hfreed, hc⟩

/-- `xRedisFree` queues a context that the event loop does not take down. -/
theorem Parted.free {s : Client} (h : s.Parted) {x c : ℕ} (hctx : (s.xcs x).ctx = some c)
    (htarget : s.loop.target ≠ some c) (hreconn : s.loop ≠ .clearingReconn)
    (hfree : s.loop ≠ .clearingFree) :
    PartedAt { (s.setConn c { s.conns c with status := (s.conns c).status + freedContext }).setXc x
      { s.xcs x with leaving := .queued } with freeAcList := s.freeAcList ++ [c] } s.loop := by
  have hother : ∀ c', s.loop.target = some c' → c' ≠ c := by
    rintro c' hc' rfl
    exact htarget hc'
  have hlet : ∀ c', s.LetGo c' → LetGo
      { (s.setConn c { s.conns c with status := (s.conns c).status + freedContext }).setXc x
        { s.xcs x with leaving := .queued } with
        freeAcList := s.freeAcList ++ [c] } c' := fun c' hl ↦
    hl.update rfl rfl (.of_update rfl fun hf ↦ ⟨hf, .inl rfl⟩)
  have hparted := h.parted
  cases hl : s.loop with
  | idle | quit => trivial
  | clearingReconn => exact absurd hl hreconn
  | clearingFree => exact absurd hl hfree
  | ending c' =>
      rw [hl] at hparted
      have hne : c' ≠ c := hother c' (by rw [hl]; rfl)
      exact ⟨by simp [hparted.1, hne], hlet c' hparted.2⟩
  | losing c' | listing c' =>
      rw [hl] at hparted
      have hne : c' ≠ c := hother c' (by rw [hl]; rfl)
      refine ⟨by simp [hparted.1, hne], hparted.2.imp (hlet c') fun hawaits ↦ ?_⟩
      simp only [Awaits, conns_setXc, conns_setConn, Function.update_of_ne hne]
      refine ⟨hawaits.1, (connected_update ?_ _).trans hawaits.2.1, hawaits.2.2⟩
      rfl

theorem Parted.partedAt_step {s s' : Client} (h : s.Parted) (hattempt : s.Attempting) {a : Action}
    (hrel : s.Released a) (hstep : s.step a = some s') : s'.PartedAt s'.loop := by
  cases step_cases hstep with
  | @connect x c hx hc =>
      refine h.create hc rfl rfl rfl rfl rfl rfl (fun _ hin ↦ ?_) fun c' htarget hawaits ↦ ?_
      · simp [h.homed.listed x hin] at hx
      · have hlive := h.whole.target c' htarget
        have hne : c' ≠ c := by
          rintro rfl
          simp [hlive.1] at hc
        have hne' : (s.conns c').xc ≠ x := by
          rintro rfl
          simp [h.homed.home c' hlive.1] at hx
        simpa [Awaits, hne, hne'] using hawaits
  | reconnect _ hidle =>
      refine h.frameConn rfl (fun _ ↦ id) rfl rfl
        (.of_update rfl fun hfreed ↦ ⟨hfreed, .inr rfl⟩) (ctx_update (.inr rfl))
        fun c' _ hawaits ↦ ?_
      obtain ⟨x', hat⟩ := hawaits.waiting
      simp [hidle] at hat
  | create hat hc =>
      refine h.create hc (by rfl) rfl rfl rfl rfl rfl (fun hl ↦ ?_) fun c' _ hawaits ↦ ?_
      · simp [hattempt.idle hl] at hat
      · obtain ⟨x', hat'⟩ := hawaits.waiting
        simp [hat] at hat'
  | abandon hat =>
      refine h.frameConn rfl (fun _ ↦ id) rfl rfl (fun _ _ hfreed hc ↦ ⟨hfreed, hc⟩)
        (fun _ _ ↦ id) fun c _ hawaits ↦ ?_
      obtain ⟨x, hat'⟩ := hawaits.waiting
      simp [hat] at hat'
  | wake =>
      exact h.frameXc rfl (fun _ ↦ id) rfl rfl rfl rfl rfl
        (fun hf ↦ (Bool.or_eq_false_iff.mp hf).1) rfl
  | freeNone =>
      exact h.frameXc rfl (fun _ ↦ id) rfl rfl rfl rfl rfl id rfl
  | unlist =>
      exact h.frameXc rfl (fun _ ↦ List.mem_of_mem_erase) rfl rfl rfl rfl rfl id rfl
  | release =>
      exact h.frameXc rfl (fun _ ↦ id) rfl rfl rfl rfl rfl (by simp) rfl
  | stop => exact h.parted
  | attach hat =>
      refine h.frameConn rfl (fun _ ↦ id) rfl rfl (fun _ _ hfreed hc ↦ ⟨hfreed, hc⟩)
        (fun _ _ ↦ id) fun c _ hawaits ↦ ?_
      obtain ⟨x, hat'⟩ := hawaits.waiting
      simp [hat] at hat'
  | remove hat =>
      refine h.frameConn rfl (fun _ ↦ List.mem_of_mem_erase) rfl rfl
        (fun _ _ hfreed hc ↦ ⟨hfreed, hc⟩) (fun _ _ ↦ id) fun c _ hawaits ↦ ?_
      obtain ⟨x, hat'⟩ := hawaits.waiting
      simp [hat] at hat'
  | resumeUp hat hup =>
      refine h.frameConn rfl (fun _ ↦ id) rfl rfl (fun _ _ hfreed hc ↦ ⟨hfreed, hc⟩)
        (fun _ _ ↦ id) fun c _ ⟨hat', hdown, _⟩ ↦ ?_
      obtain ⟨rfl, rfl⟩ := ReconnectThread.waiting.inj (hat.symm.trans hat')
      simp [hup] at hdown
  | @resumeDown x c hat _ =>
      refine h.frameConn rfl (fun _ ↦ id) rfl rfl
        (.of_update rfl fun hfreed ↦ ⟨hfreed, .inr rfl⟩) (ctx_update (.inr rfl))
        fun c' _ ⟨hat', _⟩ ↦ .inl (.inr ?_)
      obtain ⟨rfl, rfl⟩ := ReconnectThread.waiting.inj (hat.symm.trans hat')
      simp
  | establish hready =>
      show PartedAt _ s.loop
      rw [hready.1]
      trivial
  | fail hready _ => exact ⟨hrel.2, hrel.1⟩
  | @lose c hready hup =>
      obtain ⟨hlet, hout⟩ := hrel
      have hzero : (s.conns c).status = 0 := by
        by_contra hstatus
        obtain ⟨_, _, hin | htorn | hat⟩ := h.marked.queued c hstatus
        · exact hout hin
        · exact htorn hready.2.1.2
        · simp [hready.1, EventLoop.target] at hat
      refine ⟨hout, hlet.imp (fun hl ↦ ?_) fun hat ↦ ?_⟩
      · exact hl.update rfl rfl (.of_update rfl fun hf ↦ ⟨hf, .inl rfl⟩)
      · simp [Awaits, hat, hzero]
  | @deal c rest _ hlist =>
      exact ⟨(List.nodup_cons.mp (hlist ▸ h.marked.nodup)).1, hrel c (by simp [hlist])⟩
  | loop hloop => exact h.stepLoop hloop
  | @freeSome x c hfree hctx =>
      obtain ⟨htarget, hreconn⟩ := hrel c hctx
      exact h.free hctx htarget hreconn hfree.2.2.2.2.1
  | clear =>
      obtain ⟨hall, hlist⟩ := hrel
      refine ⟨hall, fun x hx c hctx ↦ ?_⟩
      have hfreed := hlist x hx
      exact ⟨h.whole.ctx x c hfreed hctx, fun hin ↦
        h.whole.owns.ctx_ne (hall c hin) x hfreed hctx⟩

theorem Parted.step {s s' : Client} (h : s.Parted) (hattempt : s.Attempting) {a : Action}
    (hrel : s.Released a) (hstep : s.step a = some s') : s'.Parted where
  whole := h.whole.step h.parted h.marked.nodup hstep
  homed := h.homed.step h.whole.target hstep
  marked := h.marked.step h.whole.owns h.homed hstep
  parted := h.partedAt_step hattempt hrel hstep

theorem fresh_parted : fresh.Parted where
  whole := fresh_whole
  homed := ⟨fun c hc ↦ by simp [fresh, Conn.absent] at hc, fun x hx ↦ by simp [fresh] at hx,
    fun x hat ↦ by simp [fresh] at hat⟩
  marked := ⟨fun c hc ↦ by simp [fresh] at hc, fun c hc ↦ by simp [fresh, Conn.absent] at hc,
    by simp [fresh]⟩
  parted := trivial

/-! ## Steps against the condition -/

/-- The context is queued, or its `xc` has it. -/
def InHand (s : Client) (c : ℕ) : Prop := c ∈ s.freeAcList ∨ ¬s.LetGo c

theorem InHand.frame {s s' : Client} {c : ℕ} (h : s.InHand c)
    (hqueue : s'.freeAcList = s.freeAcList) (hxc : (s'.conns c).xc = (s.conns c).xc)
    (hxcs : s'.xcs (s.conns c).xc = s.xcs (s.conns c).xc) : s'.InHand c := by
  unfold InHand LetGo
  rw [hqueue, hxc, hxcs]
  exact h

theorem InHand.not_tornOnce {s : Client} {c : ℕ} (h : s.InHand c) (htorn : (s.conns c).torn ≠ 0) :
    ¬s.TornOnce := by
  intro honce
  rcases h with hin | hlet
  · exact htorn (honce.queue c hin)
  · simp only [LetGo, not_or, Bool.not_eq_true, not_not] at hlet
    exact htorn (honce.ctx _ c hlet.1 hlet.2)

/-- Some run from here tears a context down that is held. -/
def Doomed (s : Client) : Prop := ∃ actions s', machine.run s actions = some s' ∧ ¬s'.TornOnce

theorem Doomed.of_run {s s' : Client} {actions : List Action}
    (hrun : machine.run s actions = some s') (h : s'.Doomed) : s.Doomed := by
  obtain ⟨rest, s'', hrest, hnot⟩ := h
  refine ⟨actions ++ rest, s'', ?_, hnot⟩
  induction actions generalizing s with
  | nil =>
      obtain rfl := Option.some.inj hrun
      exact hrest
  | cons a actions ih =>
      obtain ⟨s₁, hstep, hrun⟩ := Option.bind_eq_some_iff.mp hrun
      rw [List.cons_append, Machine.run, hstep, Option.bind_some, ih hrun]

theorem Doomed.of_step {s s' : Client} {a : Action} (hstep : s.step a = some s')
    (h : s'.Doomed) : s.Doomed := by
  have hrun : machine.run s [a] = some s' := by simp [Machine.run, machine, hstep]
  exact .of_run hrun h

theorem InHand.ending_unlocked {s : Client} {c : ℕ} (h : s.InHand c) (hloop : s.loop = .ending c)
    (hunlocked : s.Unlocked (s.conns c).xc) : s.Doomed := by
  have hstep : s.step .loop = some { s.tear c with loop := .idle } := by
    simp [Client.step, Client.stepLoop, hloop, asyncFree, hunlocked]
  refine .of_step hstep ⟨[], _, rfl, InHand.not_tornOnce (c := c) (h.frame rfl ?_ rfl) ?_⟩
  · simp [tear]
  · simp [tear]

theorem InHand.ending {s : Client} {c : ℕ} (h : s.InHand c) (hloop : s.loop = .ending c) :
    s.Doomed := by
  by_cases hunlocked : s.Unlocked (s.conns c).xc
  · exact h.ending_unlocked hloop hunlocked
  · cases hat : s.reconnect with
    | attaching x c' =>
        have hstep : s.step .attach = some { s with reconnect := .waiting x c' } := by
          simp [Client.step, Client.attach, hat]
        refine .of_step hstep (InHand.ending_unlocked (c := c) h hloop ?_)
        simp [Unlocked, ReconnectThread.locks]
    | creating x =>
        have hstep : s.step .abandon = some { s with reconnect := .idle } := by
          simp [Client.step, Client.abandon, hat]
        refine .of_step hstep (InHand.ending_unlocked (c := c) h hloop ?_)
        simp [Unlocked, ReconnectThread.locks]
    | idle | waiting | removing => simp [Unlocked, hat, ReconnectThread.locks] at hunlocked

/-- The reconnect thread can end its attempt, and keeps every context but its own. -/
theorem settle (s : Client) : ∃ actions s', machine.run s actions = some s' ∧
    s'.reconnect = .idle ∧ s'.loop = s.loop ∧ s'.conns = s.conns ∧
    s'.freeAcList = s.freeAcList ∧
    ∀ x, (∀ c, s.reconnect ≠ .attaching x c ∧ s.reconnect ≠ .waiting x c) →
      s'.xcs x = s.xcs x := by
  have hremoving : ∀ s : Client, ∀ x, s.reconnect = .removing x →
      machine.run s [.remove] =
        some { s with reconnect := .idle, reconnList := s.reconnList.erase x } := by
    intro s x hat
    simp [Machine.run, machine, Client.step, Client.remove, hat]
  have hwaiting : ∀ s : Client, ∀ x c, s.reconnect = .waiting x c →
      ∃ actions s', machine.run s actions = some s' ∧ s'.reconnect = .idle ∧ s'.loop = s.loop ∧
        s'.conns = s.conns ∧ s'.freeAcList = s.freeAcList ∧
        ∀ x', x' ≠ x → s'.xcs x' = s.xcs x' := by
    intro s x c hat
    by_cases hup : (s.xcs x).connected = true
    · refine ⟨[.resume, .remove], { s with reconnect := .idle, reconnList := s.reconnList.erase x },
        ?_, rfl, rfl, rfl, rfl, fun _ _ ↦ rfl⟩
      simp [Machine.run, machine, Client.step, Client.resume, Client.remove, hat, hup]
    · refine ⟨[.resume], { s.setXc x { s.xcs x with ctx := none } with reconnect := .idle },
        ?_, rfl, rfl, rfl, rfl, fun x' hx ↦ by simp [hx]⟩
      simp [Machine.run, machine, Client.step, Client.resume, hat, hup]
  cases hat : s.reconnect with
  | idle => exact ⟨[], s, rfl, hat, rfl, rfl, rfl, fun _ _ ↦ rfl⟩
  | creating x =>
      refine ⟨[.abandon], { s with reconnect := .idle }, ?_, rfl, rfl, rfl, rfl, fun _ _ ↦ rfl⟩
      simp [Machine.run, machine, Client.step, Client.abandon, hat]
  | removing x => exact ⟨_, _, hremoving s x hat, rfl, rfl, rfl, rfl, fun _ _ ↦ rfl⟩
  | waiting x c =>
      obtain ⟨actions, s', hrun, hidle, hloop, hconns, hqueue, hxcs⟩ := hwaiting s x c hat
      refine ⟨actions, s', hrun, hidle, hloop, hconns, hqueue, fun x' hx' ↦ hxcs x' ?_⟩
      rintro rfl
      exact (hx' c).2 rfl
  | attaching x c =>
      obtain ⟨actions, s', hrun, hidle, hloop, hconns, hqueue, hxcs⟩ :=
        hwaiting { s with reconnect := .waiting x c } x c rfl
      refine ⟨.attach :: actions, s', ?_, hidle, hloop, hconns, hqueue, fun x' hx' ↦ hxcs x' ?_⟩
      · rw [Machine.run]
        simp only [machine, Client.step, Client.attach, hat, Option.bind_some]
        exact hrun
      · rintro rfl
        exact (hx' c).1 rfl

/-- The thread that ends its attempt does not let go of the context. -/
theorem InHand.listing {s : Client} {c : ℕ} (h : s.InHand c) (hloop : s.loop = .listing c)
    (hxc : c ∈ s.freeAcList ∨ ∀ c', s.reconnect ≠ .attaching (s.conns c).xc c' ∧
      s.reconnect ≠ .waiting (s.conns c).xc c') : s.Doomed := by
  obtain ⟨actions, s', hrun, hidle, hloop', hconns, hqueue, hxcs⟩ := settle s
  have hheld : s'.InHand c := by
    rcases hxc with hin | hxc
    · exact .inl (hqueue ▸ hin)
    · exact h.frame hqueue (by rw [hconns]) (hxcs _ hxc)
  have hstep : s'.step .loop = some { s' with
      reconnList :=
        if (s'.conns c).xc ∈ s'.reconnList then s'.reconnList
        else s'.reconnList ++ [(s'.conns c).xc]
      loop := .ending c } := by
    simp [Client.step, Client.stepLoop, hloop', hloop, hidle]
  exact .of_run hrun (.of_step hstep (InHand.ending (c := c) hheld rfl))

theorem InHand.losing {s : Client} {c : ℕ} (h : s.InHand c) (hloop : s.loop = .losing c)
    (hxc : (s.conns c).status = freedContext ∨ ∀ c', s.reconnect ≠ .attaching (s.conns c).xc c' ∧
      s.reconnect ≠ .waiting (s.conns c).xc c') : s.Doomed := by
  by_cases hstatus : (s.conns c).status = freedContext
  · have hstep : s.step .loop = some { s with loop := .ending c } := by
      simp [Client.step, Client.stepLoop, hloop, hstatus]
    exact .of_step hstep (InHand.ending (c := c) h rfl)
  · have hstep : s.step .loop = some { s with loop := .listing c } := by
      simp [Client.step, Client.stepLoop, hloop, hstatus]
    exact .of_step hstep (InHand.listing (c := c) h rfl (.inr (hxc.resolve_left hstatus)))

/-- The walk through `client.free_ac_list` comes to the context. -/
theorem doomed_clearingFree {s : Client} {c : ℕ} (hlet : ¬s.LetGo c)
    (hloop : s.loop = .clearingFree) (hin : c ∈ s.freeAcList) (hidle : s.reconnect = .idle) :
    s.Doomed := by
  induction hlist : s.freeAcList generalizing s with
  | nil => simp [hlist] at hin
  | cons c' rest ih =>
      have hstep : s.step .loop = some { s.tear c' with freeAcList := rest } := by
        simp [Client.step, Client.stepLoop, hloop, hlist, asyncFree, Unlocked, hidle,
          ReconnectThread.locks]
      have hheld : InHand { s.tear c' with freeAcList := rest } c := by
        refine .inr fun hl ↦ hlet ?_
        by_cases hc : c = c'
        · subst hc
          simpa [LetGo, tear] using hl
        · simpa [LetGo, tear, hc] using hl
      by_cases hc : c' = c
      · exact .of_step hstep ⟨[], _, rfl, hheld.not_tornOnce (by simp [tear, hc])⟩
      · have hrest : c ∈ rest := (List.mem_cons.mp (hlist ▸ hin)).resolve_left (Ne.symm hc)
        refine .of_step hstep (ih ?_ hloop ?_ hidle rfl)
        · simpa [LetGo, tear, Ne.symm hc] using hlet
        · exact hrest

/-- `clearClient` comes to the context in one list or in the other. -/
theorem doomed_clearingReconn {s : Client} {c : ℕ} (howns : s.Owns) (hlet : ¬s.LetGo c)
    (hloop : s.loop = .clearingReconn) (hin : c ∈ s.freeAcList) (hidle : s.reconnect = .idle) :
    s.Doomed := by
  have hunlocked : ∀ x, s.Unlocked x := fun x ↦ by simp [Unlocked, hidle, ReconnectThread.locks]
  induction hlist : s.reconnList generalizing s with
  | nil =>
      have hstep : s.step .loop = some { s with loop := .clearingFree } := by
        simp [Client.step, Client.stepLoop, hloop, hlist]
      exact .of_step hstep (doomed_clearingFree (c := c) hlet rfl hin hidle)
  | cons x rest ih =>
      have hkeeps : x ≠ (s.conns c).xc → ∀ s' : Client, (s'.conns c).xc = (s.conns c).xc →
          s'.xcs = Function.update s.xcs x { s.xcs x with ctx := none, freed := true } →
          ¬s'.LetGo c := by
        intro hx s' hxc hxcs hl
        refine hlet ?_
        unfold LetGo at hl
        rwa [hxc, hxcs, Function.update_of_ne hx.symm] at hl
      cases hctx : (s.xcs x).ctx with
      | none =>
          have hstep : s.step .loop = some { s.setXc x { s.xcs x with
              ctx := none, freed := true } with reconnList := rest } := by
            simp [Client.step, Client.stepLoop, hloop, hlist, hctx]
          have hx : x ≠ (s.conns c).xc := by
            rintro rfl
            exact hlet (.inr (by simp [hctx]))
          exact .of_step hstep (ih (howns.step hstep) (hkeeps hx _ rfl rfl) hloop hin hidle
            hunlocked rfl)
      | some c' =>
          have hstep : s.step .loop = some { (s.tear c').setXc x { s.xcs x with
              ctx := none, freed := true } with reconnList := rest } := by
            simp [Client.step, Client.stepLoop, hloop, hlist, hctx, asyncFree, hunlocked, tear]
          by_cases hc : c' = c
          · refine .of_step hstep ⟨[], _, rfl, InHand.not_tornOnce (c := c) (.inl hin) ?_⟩
            simp [tear, hc]
          · have hx : x ≠ (s.conns c).xc := by
              rintro rfl
              refine hlet (.inr ?_)
              rwa [hctx, ne_eq, Option.some.injEq]
            refine .of_step hstep (ih (howns.step hstep) (hkeeps hx _ ?_ rfl) hloop hin hidle
              hunlocked rfl)
            simp [tear, Ne.symm hc]

/-- `xRedisFree` queues a context that the event loop takes down or will come to. -/
theorem Parted.free_doomed {s : Client} (h : s.Parted) (hattempt : s.Attempting) {x c : ℕ}
    (hctx : (s.xcs x).ctx = some c) (hfreed : (s.xcs x).freed = false)
    (hno : (s.xcs x).leaving = .no)
    (hbad : s.loop.target = some c ∨ s.loop = .clearingReconn) :
    Doomed { (s.setConn c { s.conns c with status := (s.conns c).status + freedContext }).setXc x
      { s.xcs x with leaving := .queued } with freeAcList := s.freeAcList ++ [c] } := by
  obtain ⟨hmade, hxc⟩ := h.whole.owns x c hctx
  have hin : c ∈ s.freeAcList ++ [c] := by simp
  have hstatus := (h.marked.free h.whole.owns hno hctx).marked c hin
  rcases hbad with htarget | hreconn
  · cases hl : s.loop with
    | idle | quit | clearingReconn | clearingFree => simp [hl, EventLoop.target] at htarget
    | losing c' =>
        obtain rfl : c' = c := by simpa [hl, EventLoop.target] using htarget
        exact InHand.losing (.inl hin) hl (.inl hstatus)
    | listing c' =>
        obtain rfl : c' = c := by simpa [hl, EventLoop.target] using htarget
        exact InHand.listing (.inl hin) hl (.inl hin)
    | ending c' =>
        obtain rfl : c' = c := by simpa [hl, EventLoop.target] using htarget
        exact InHand.ending (.inl hin) hl
  · refine doomed_clearingReconn (c := c) ?_ ?_ hreconn hin (hattempt.idle hreconn)
    · exact h.whole.owns.frameConn rfl rfl rfl (ctx_update (.inl rfl))
    · simp [LetGo, hxc, hfreed, hctx]

/-- A step against the condition can be continued to a teardown of a held context, unless
it is `clearClient`'s and it has a freed `xc` in its list. -/
theorem Parted.doomed {s s' : Client} (h : s.Parted) (hattempt : s.Attempting) {a : Action}
    (hrel : ¬s.Released a) (hstep : s.step a = some s') :
    s'.Doomed ∨ a = .clear ∧ ∃ x ∈ s.reconnList, (s.xcs x).freed = true := by
  cases step_cases hstep with
  | connect | wake | reconnect | create | abandon | attach | resumeUp | resumeDown | remove
  | establish | loop | unlist | release | stop => exact absurd trivial hrel
  | freeNone _ hctx => simp [Released, hctx] at hrel
  | @fail c hready _ =>
      have hheld : s.InHand c := by
        by_cases hin : c ∈ s.freeAcList
        · exact .inl hin
        · exact .inr fun hlet ↦ hrel ⟨hlet, hin⟩
      exact .inl (InHand.ending (c := c) hheld rfl)
  | @lose c hready hup =>
      by_cases hin : c ∈ s.freeAcList
      · refine .inl (InHand.losing (c := c) (.inl hin) rfl (.inl ?_))
        simpa using h.marked.marked c hin
      · have hlet : ¬s.LetGo c := fun hlet ↦ hrel ⟨.inl hlet, hin⟩
        have hwaits : s.reconnect ≠ .waiting (s.conns c).xc c := fun hat ↦ hrel ⟨.inr hat, hin⟩
        refine .inl (InHand.losing (c := c) (.inr ?_) rfl (.inr fun c' ↦ ?_))
        · simpa [LetGo] using hlet
        · simp only [conns_setXc, conns_setConn, Function.update_self, reconnect_setXc,
            reconnect_setConn]
          refine ⟨fun hat ↦ ?_, fun hat ↦ hlet (.inr fun hctx ↦ hwaits ?_)⟩
          · exact hready.2.2 (by rw [hat]; rfl)
          · have hsame := (hattempt.ctx _ c' (.inr hat)).symm.trans hctx
            rw [hat, Option.some.inj hsame]
  | @deal c rest _ hlist =>
      have hlet : ¬s.LetGo c := by simpa [Released, hlist] using hrel
      exact .inl (InHand.ending (c := c) (.inr hlet) rfl)
  | @freeSome x c hfree hctx =>
      obtain ⟨_, hfreed, _, hno, _⟩ := hfree
      refine .inl (h.free_doomed hattempt hctx hfreed hno ?_)
      by_contra hnot
      rw [not_or] at hnot
      refine hrel fun c' hc' ↦ ?_
      obtain rfl := Option.some.inj (hctx.symm.trans hc')
      exact hnot
  | clear _ _ hidle =>
      by_cases hfreed : ∃ x ∈ s.reconnList, (s.xcs x).freed = true
      · exact .inr ⟨rfl, hfreed⟩
      · obtain ⟨c, hin, hlet⟩ : ∃ c ∈ s.freeAcList, ¬s.LetGo c := by
          by_contra hnone
          refine hrel ⟨fun c hc ↦ ?_, fun x hx ↦ ?_⟩
          · by_contra hlet
            exact hnone ⟨c, hc, hlet⟩
          · by_contra hx'
            exact hfreed ⟨x, hx, by simpa using hx'⟩
        exact .inl (doomed_clearingReconn (c := c) h.whole.owns hlet rfl hin hidle)

theorem parted_of_reach {s : Client} (h : machine.Reach Released s) : s.Parted ∧ s.Attempting := by
  induction h with
  | start hstart =>
      obtain rfl : _ = fresh := hstart
      exact ⟨fresh_parted, .of_idle rfl⟩
  | step a _ hrel hstep ih =>
      obtain ⟨hs, hattempt⟩ := ih
      exact ⟨hs.step hattempt hrel hstep, hattempt.step hs.whole.owns hs.homed hstep⟩

end Client

end MuxHiredis
