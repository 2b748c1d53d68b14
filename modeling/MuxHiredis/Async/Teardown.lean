import MuxHiredis.Async.Growth
import MuxHiredis.Lib.Machine

/-!
# Teardown

What the functions of `async.c` leave as it is.  No call of a reply callback
disturbs the connection, and while a context is closing its callbacks are run
down without a new one being added.
-/

namespace MuxHiredis

def Event.isOnConnect : Event → Bool
  | .onConnect _ => true
  | _ => false

def Event.isOnDisconnect : Event → Bool
  | .onDisconnect _ => true
  | _ => false

/-- Not an event of the two callbacks. -/
def Event.Quiet (e : Event) : Prop := e.isOnConnect = false ∧ e.isOnDisconnect = false

namespace AsyncContext

/-! ## What leaves a context open -/

/-- What decides about the two callbacks. -/
structure Standing where
  connected : Bool
  onConnect : Bool
  onDisconnect : Bool
  cErr : Option RedisErr
  freed : Bool

def standing (ac : AsyncContext) : Standing :=
  ⟨ac.flags.connected, ac.onConnect, ac.onDisconnect, ac.cErr, ac.freed⟩

/-- From `ac` to `ac'` neither of the two callbacks was run, and nothing that
decides about them changed. -/
structure Undisturbed (ac ac' : AsyncContext) : Prop where
  events : ∃ es, ac'.trace = ac.trace ++ es ∧ ∀ e ∈ es, e.Quiet
  standing : ac'.standing = ac.standing
  idle : ac.flags.inCallback = false → ac'.flags.inCallback = false
  closing : ac.flags.closing = true → ac'.flags.closing = true

theorem Undisturbed.refl (ac : AsyncContext) : Undisturbed ac ac :=
  ⟨⟨[], by simp, by simp⟩, rfl, id, id⟩

theorem Undisturbed.trans {ac₁ ac₂ ac₃ : AsyncContext} (h : Undisturbed ac₁ ac₂)
    (h' : Undisturbed ac₂ ac₃) : Undisturbed ac₁ ac₃ := by
  obtain ⟨es, htrace, hes⟩ := h.events
  obtain ⟨es', htrace', hes'⟩ := h'.events
  refine ⟨⟨es ++ es', ?_, ?_⟩, h'.standing.trans h.standing, h'.idle ∘ h.idle,
    h'.closing ∘ h.closing⟩
  · rw [htrace', htrace, List.append_assoc]
  · intro e he
    rcases List.mem_append.mp he with he | he
    · exact hes e he
    · exact hes' e he

instance : IsTrans AsyncContext Undisturbed := ⟨fun _ _ _ ↦ Undisturbed.trans⟩

theorem Undisturbed.record (ac : AsyncContext) {e : Event} (he : e.Quiet) :
    Undisturbed ac (ac.record e) :=
  ⟨⟨[e], rfl, by simpa using he⟩, rfl, id, id⟩

/-- The callbacks that a closing context still has to run. -/
structure Kept (ac ac' : AsyncContext) : Prop where
  replies : ac'.replies = ac.replies
  invalid : ac'.invalid = ac.invalid
  channels : ac'.channels = ac.channels
  patterns : ac'.patterns = ac.patterns

theorem Kept.refl (ac : AsyncContext) : Kept ac ac := ⟨rfl, rfl, rfl, rfl⟩

/-- What the calls of a callback can do. -/
structure Inside (ac ac' : AsyncContext) : Prop extends Undisturbed ac ac' where
  kept : ac.flags.closing = true → Kept ac ac'

theorem Inside.refl (ac : AsyncContext) : Inside ac ac :=
  ⟨.refl ac, fun _ ↦ .refl ac⟩

theorem Inside.trans {ac₁ ac₂ ac₃ : AsyncContext} (h : Inside ac₁ ac₂) (h' : Inside ac₂ ac₃) :
    Inside ac₁ ac₃ := by
  refine ⟨h.toUndisturbed.trans h'.toUndisturbed, fun hc ↦ ?_⟩
  have hk := h.kept hc
  have hk' := h'.kept (h.closing hc)
  exact ⟨hk'.1.trans hk.1, hk'.2.trans hk.2, hk'.3.trans hk.3, hk'.4.trans hk.4⟩

instance : Std.Refl Inside := ⟨Inside.refl⟩

instance : IsTrans AsyncContext Inside := ⟨fun _ _ _ ↦ Inside.trans⟩

theorem subscribeAll_undisturbed (ac : AsyncContext) (pattern : Bool) (cb : RedisCallback)
    (names : List (List UInt8)) :
    Undisturbed ac (names.foldl (fun ac name ↦ ac.subscribeTo pattern cb name) ac) := by
  induction names generalizing ac with
  | nil => exact .refl ac
  | cons name names ih =>
      refine Undisturbed.trans ?_ (ih (ac.subscribeTo pattern cb name))
      unfold subscribeTo
      split <;> exact ⟨⟨[], by simp, by simp⟩, rfl, id, id⟩

theorem registerCallback_undisturbed (kind : CommandKind) (cb : RedisCallback) :
    Within Undisturbed fun ac ↦ ac.registerCallback kind cb := by
  intro ac ac' h
  have hlists : ∀ replies invalid : List RedisCallback, ∀ flags : Flags,
      flags = { ac.flags with subscribed := flags.subscribed, monitoring := flags.monitoring } →
      Undisturbed ac { ac with replies := replies, invalid := invalid, flags := flags } := by
    intro replies invalid flags hflags
    rw [hflags]
    exact ⟨⟨[], by simp, by simp⟩, rfl, id, id⟩
  have hmode : Event.enterMode.Quiet := ⟨rfl, rfl⟩
  cases kind with
  | subscribe pattern names =>
      obtain rfl := Option.some.inj h
      refine Undisturbed.trans ?_ (.record _ hmode)
      exact (hlists ac.replies ac.invalid { ac.flags with subscribed := true } rfl).trans
        (subscribeAll_undisturbed _ pattern cb names)
  | unsubscribe =>
      simp only [registerCallback] at h
      split at h
      · exact Option.some.inj h ▸ .refl ac
      · simp at h
  | monitor =>
      obtain rfl := Option.some.inj h
      exact (hlists (ac.replies ++ [cb]) ac.invalid { ac.flags with monitoring := true } rfl).trans
        (.record _ hmode)
  | regular =>
      simp only [registerCallback] at h
      split at h
      · exact Option.some.inj h ▸ hlists ac.replies (ac.invalid ++ [cb]) ac.flags rfl
      · exact Option.some.inj h ▸ hlists (ac.replies ++ [cb]) ac.invalid ac.flags rfl

/-- A closing context refuses commands, and otherwise these disturb nothing. -/
theorem asyncCommand_inside {ac : AsyncContext} {fn : Option ℕ} {privdata : ℕ} {cmd : List UInt8}
    {p : Status × AsyncContext} (h : ac.asyncCommand fn privdata cmd = some p) :
    Inside ac p.2 := by
  unfold asyncCommand at h
  split at h
  · exact Option.some.inj h ▸ .refl ac
  · rename_i hclosing
    refine ⟨?_, fun hc ↦ (hclosing hc).elim⟩
    obtain ⟨kind, -, rfl⟩ := Option.map_eq_some_iff.mp h
    cases hreg : ac.registerCallback kind ⟨fn, privdata⟩ with
    | none => exact .refl ac
    | some ac' =>
        have hsent : Undisturbed ac' { ac' with obuf := ac'.obuf ++ cmd } :=
          ⟨⟨[], by simp, by simp⟩, rfl, id, id⟩
        exact ((registerCallback_undisturbed kind _ ac ac' hreg).trans hsent).trans
          (.record _ ⟨rfl, rfl⟩)

/-- A flag that refuses commands is raised. -/
theorem raise_inside (ac : AsyncContext) {flags : Flags}
    (hflags : flags = { ac.flags with disconnecting := true } ∨
      flags = { ac.flags with freeing := true }) : Inside ac { ac with flags := flags } := by
  rcases hflags with rfl | rfl
  · exact ⟨⟨⟨[], by simp, by simp⟩, rfl, id, by simp [Flags.closing]⟩,
      fun _ ↦ ⟨rfl, rfl, rfl, rfl⟩⟩
  · exact ⟨⟨⟨[], by simp, by simp⟩, rfl, id, by simp [Flags.closing]⟩,
      fun _ ↦ ⟨rfl, rfl, rfl, rfl⟩⟩

theorem performInside_inside (call : ApiCall) : Within Inside (performInside call) := by
  intro ac ac' h
  cases call with
  | command fn privdata cmd =>
      obtain ⟨p, hp, rfl⟩ := Option.map_eq_some_iff.mp h
      exact asyncCommand_inside hp
  | disconnect =>
      simp only [performInside, performWith, disconnectWith, ite_self, Option.some.injEq] at h
      exact h ▸ raise_inside ac (Or.inl rfl)
  | free =>
      simp only [performInside, performWith, freeWith, ite_self, Option.some.injEq] at h
      exact h ▸ raise_inside ac (Or.inr rfl)

section Script

variable (script : ℕ → List ApiCall)

theorem runCallback_inside (cb : RedisCallback) (reply : Option ReplyTree) :
    Within Inside fun ac ↦ ac.runCallback script cb reply := by
  intro ac ac' h
  unfold runCallback at h
  cases hfn : cb.fn with
  | none =>
      rw [hfn] at h
      exact Option.some.inj h ▸ .refl ac
  | some fn =>
      rw [hfn] at h
      obtain ⟨ac₁, hcalls, rfl⟩ := Option.map_eq_some_iff.mp h
      have hbody := Within.foldlM performInside_inside _ _ _ hcalls
      obtain ⟨es, htrace, hes⟩ := hbody.events
      refine ⟨⟨⟨.run fn cb.privdata reply :: es, ?_, ?_⟩, hbody.standing, fun _ ↦ rfl,
        hbody.closing⟩, ?_⟩
      · simpa [record] using htrace
      · simpa [Event.Quiet, Event.isOnConnect, Event.isOnDisconnect] using hes
      · intro hclosing
        have hkept := hbody.kept hclosing
        exact ⟨hkept.1, hkept.2, hkept.3, hkept.4⟩

theorem mem_runCallback {ac ac' : AsyncContext} {cb : RedisCallback} {fn : ℕ}
    (hfn : cb.fn = some fn) (h : ac.runCallback script cb none = some ac') :
    .run fn cb.privdata none ∈ ac'.trace := by
  unfold runCallback at h
  rw [hfn] at h
  obtain ⟨ac₁, hcalls, rfl⟩ := Option.map_eq_some_iff.mp h
  have hbody := Logged.Extends.foldlM performInside_extends _ _ _ hcalls
  exact hbody.subset (by simp [Logged.log, record])

theorem shiftReplies_undisturbed {ac ac' : AsyncContext} {cb : RedisCallback}
    (h : ac.shiftReplies = some (cb, ac')) : Undisturbed ac ac' := by
  unfold shiftReplies at h
  split at h
  · simp at h
  · obtain ⟨-, rfl⟩ := Prod.mk.inj (Option.some.inj h)
    exact ⟨⟨[], by simp, by simp⟩, rfl, id, id⟩

theorem shiftInvalid_undisturbed {ac ac' : AsyncContext} {cb : RedisCallback}
    (h : ac.shiftInvalid = some (cb, ac')) : Undisturbed ac ac' := by
  unfold shiftInvalid at h
  split at h
  · simp at h
  · obtain ⟨-, rfl⟩ := Prod.mk.inj (Option.some.inj h)
    exact ⟨⟨[], by simp, by simp⟩, rfl, id, id⟩

/-! ## Teardown -/

theorem drainFor_undisturbed {shift : AsyncContext → Option (RedisCallback × AsyncContext)}
    (hshift : ∀ {ac cb ac'}, shift ac = some (cb, ac') → Undisturbed ac ac') (n : ℕ) :
    Within Undisturbed (drainFor script shift n) := by
  induction n with
  | zero => exact fun ac ac' h ↦ Option.some.inj h ▸ .refl ac
  | succ n ih =>
      intro ac ac' h
      unfold drainFor at h
      cases hs : shift ac with
      | none =>
          rw [hs] at h
          exact Option.some.inj h ▸ .refl ac
      | some p =>
          rw [hs] at h
          obtain ⟨ac₁, hrun, hrest⟩ := Option.bind_eq_some_iff.mp h
          have hcb := runCallback_inside script p.1 none p.2 ac₁ hrun
          exact ((hshift hs).trans hcb.toUndisturbed).trans (ih ac₁ ac' hrest)

theorem runAll_inside (cbs : List RedisCallback) : Within Inside (runAll script cbs) :=
  Within.foldlM (fun cb ↦ runCallback_inside script cb none) cbs

theorem endSubscriptions_undisturbed : Within Undisturbed (endSubscriptions script) := by
  apply Within.bind
  · exact fun ac ↦ drainFor_undisturbed script shiftInvalid_undisturbed ac.invalid.length ac
  · apply Within.bind
    · exact fun ac ac' h ↦ (runAll_inside script _ ac ac' h).toUndisturbed
    · exact fun ac ac' h ↦ (runAll_inside script _ ac ac' h).toUndisturbed

/-- While the context is closing the loop over a list of callbacks runs the list
down, and leaves the others as they are. -/
theorem drainFor_empties {ρ : Type} {shift : AsyncContext → Option (RedisCallback × AsyncContext)}
    (pending : AsyncContext → List RedisCallback) (others : AsyncContext → ρ)
    (hnone : ∀ {ac}, shift ac = none → pending ac = [])
    (hsome : ∀ {ac cb ac'}, shift ac = some (cb, ac') →
      pending ac = cb :: pending ac' ∧ others ac' = others ac ∧ ac'.flags = ac.flags)
    (hkept : ∀ {ac ac'}, Kept ac ac' → pending ac' = pending ac ∧ others ac' = others ac)
    {ac ac' : AsyncContext} (hclosing : ac.flags.closing = true)
    (h : drainFor script shift (pending ac).length ac = some ac') :
    pending ac' = [] ∧ others ac' = others ac := by
  generalize hlist : pending ac = list at h
  induction list generalizing ac with
  | nil =>
      obtain rfl := Option.some.inj h
      exact ⟨hlist, rfl⟩
  | cons cb list ih =>
      rw [List.length_cons, drainFor] at h
      cases hs : shift ac with
      | none => exact absurd (hlist.symm.trans (hnone hs)) (by simp)
      | some p =>
          rw [hs] at h
          obtain ⟨ac₁, hrun, hrest⟩ := Option.bind_eq_some_iff.mp h
          obtain ⟨hpending, hothers, hflags⟩ := hsome hs
          have hcb := runCallback_inside script p.1 none p.2 ac₁ hrun
          have hclosing' : p.2.flags.closing = true := hflags ▸ hclosing
          obtain ⟨hpending₁, hothers₁⟩ := hkept (hcb.kept hclosing')
          have htail : pending p.2 = list := (List.cons.inj (hpending.symm.trans hlist)).2
          obtain ⟨hempty, hrestOthers⟩ :=
            ih (hcb.closing hclosing') (hpending₁.trans htail) hrest
          exact ⟨hempty, (hrestOthers.trans hothers₁).trans hothers⟩

theorem drainReplies_empties {ac ac' : AsyncContext} (hclosing : ac.flags.closing = true)
    (h : drainFor script shiftReplies ac.replies.length ac = some ac') :
    ac'.replies = [] ∧ (ac'.invalid, ac'.channels, ac'.patterns) =
      (ac.invalid, ac.channels, ac.patterns) := by
  apply drainFor_empties script replies (fun ac ↦ (ac.invalid, ac.channels, ac.patterns))
    ?_ ?_ ?_ hclosing h
  · intro ac hs
    unfold shiftReplies at hs
    split at hs
    · assumption
    · simp at hs
  · intro ac cb ac' hs
    unfold shiftReplies at hs
    split at hs
    · simp at hs
    · rename_i hreplies
      obtain ⟨rfl, rfl⟩ := Prod.mk.inj (Option.some.inj hs)
      exact ⟨hreplies, rfl, rfl⟩
  · exact fun hk ↦ ⟨hk.1, by rw [hk.2, hk.3, hk.4]⟩

theorem drainInvalid_empties {ac ac' : AsyncContext} (hclosing : ac.flags.closing = true)
    (h : drainFor script shiftInvalid ac.invalid.length ac = some ac') :
    ac'.invalid = [] ∧ (ac'.replies, ac'.channels, ac'.patterns) =
      (ac.replies, ac.channels, ac.patterns) := by
  apply drainFor_empties script invalid (fun ac ↦ (ac.replies, ac.channels, ac.patterns))
    ?_ ?_ ?_ hclosing h
  · intro ac hs
    unfold shiftInvalid at hs
    split at hs
    · assumption
    · simp at hs
  · intro ac cb ac' hs
    unfold shiftInvalid at hs
    split at hs
    · simp at hs
    · rename_i hinvalid
      obtain ⟨rfl, rfl⟩ := Prod.mk.inj (Option.some.inj hs)
      exact ⟨hinvalid, rfl, rfl⟩
  · exact fun hk ↦ ⟨hk.2, by rw [hk.1, hk.3, hk.4]⟩

theorem mem_runAll {cbs : List RedisCallback} {ac ac' : AsyncContext}
    (h : runAll script cbs ac = some ac') {cb : RedisCallback} (hcb : cb ∈ cbs) {fn : ℕ}
    (hfn : cb.fn = some fn) : .run fn cb.privdata none ∈ ac'.trace := by
  induction cbs generalizing ac with
  | nil => simp at hcb
  | cons c cbs ih =>
      rw [runAll, List.foldlM_cons] at h
      obtain ⟨ac₁, hrun, hrest⟩ := Option.bind_eq_some_iff.mp h
      rcases List.mem_cons.mp hcb with rfl | hcb
      · exact (runAll_extends script cbs ac₁ ac' hrest).subset (mem_runCallback script hfn hrun)
      · exact ih hrest hcb

/-- No callback is pending, and those of the subscriptions were run with
`NULL`. -/
structure Settled (ac : AsyncContext) (τ : List Event) : Prop where
  replies : ac.replies = []
  invalid : ac.invalid = []
  subscriptions : ∀ pattern name cb fn, (ac.callbacks pattern).lookup name = some cb →
    cb.fn = some fn → .run fn cb.privdata none ∈ τ

theorem mem_of_lookup {d : CallbackDict} {name : List UInt8} {cb : RedisCallback}
    (h : d.lookup name = some cb) : cb ∈ d.entries.map (·.2) :=
  List.mem_map.mpr ⟨_, AList.mem_lookup_iff.mp h, rfl⟩

theorem endSubscriptions_settled {ac ac' : AsyncContext} (hclosing : ac.flags.closing = true)
    (hreplies : ac.replies = []) (h : ac.endSubscriptions script = some ac') :
    Settled ac' ac'.trace := by
  obtain ⟨ac₁, hdrain, h⟩ := Option.bind_eq_some_iff.mp h
  obtain ⟨ac₂, hchannels, hpatterns⟩ := Option.bind_eq_some_iff.mp h
  obtain ⟨hinvalid₁, hothers₁⟩ := drainInvalid_empties script hclosing hdrain
  obtain ⟨hreplies₁, -, -⟩ : ac₁.replies = ac.replies ∧ _ ∧ _ := by simpa using hothers₁
  have hclosing₁ : ac₁.flags.closing = true :=
    (drainFor_undisturbed script shiftInvalid_undisturbed _ ac ac₁ hdrain).closing hclosing
  have hin₂ := runAll_inside script _ ac₁ ac₂ hchannels
  have hin' := runAll_inside script _ ac₂ ac' hpatterns
  have hkept₂ := hin₂.kept hclosing₁
  have hkept' := hin'.kept (hin₂.closing hclosing₁)
  refine ⟨?_, ?_, ?_⟩
  · rw [hkept'.replies, hkept₂.replies, hreplies₁, hreplies]
  · rw [hkept'.invalid, hkept₂.invalid, hinvalid₁]
  · intro pattern name cb fn hlookup hfn
    cases pattern with
    | false =>
        have hcb : ac₁.channels.lookup name = some cb := by
          rw [← hkept₂.channels, ← hkept'.channels]
          exact hlookup
        have hmem := mem_runAll script hchannels (mem_of_lookup hcb) hfn
        exact (runAll_extends script _ ac₂ ac' hpatterns).subset hmem
    | true =>
        have hcb : ac₂.patterns.lookup name = some cb := by
          rw [← hkept'.patterns]
          exact hlookup
        exact mem_runAll script hpatterns (mem_of_lookup hcb) hfn

end Script

end AsyncContext

end MuxHiredis
