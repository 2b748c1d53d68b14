import MuxHiredis.Async.Growth

/-!
# Registered callbacks

Which callbacks a context may still run, and how its functions change them.
-/

namespace MuxHiredis

namespace AsyncContext

/-- The callback is pending, or that of a subscription. -/
def Registered (ac : AsyncContext) (cb : RedisCallback) : Prop :=
  cb ∈ ac.replies ∨ cb ∈ ac.invalid ∨
    ∃ pattern name, (⟨name, cb⟩ : Sigma fun _ ↦ RedisCallback) ∈ (ac.callbacks pattern).entries

theorem Registered.of_subscribeTo {ac : AsyncContext} {pattern : Bool} {cb cb' : RedisCallback}
    {name : List UInt8} (h : (ac.subscribeTo pattern cb name).Registered cb') :
    ac.Registered cb' ∨ cb' = cb := by
  rcases h with h | h | ⟨p, n, h⟩
  · left
    left
    cases pattern <;> exact h
  · left
    right
    left
    cases pattern <;> exact h
  · have hinsert : ∀ d : CallbackDict,
        (⟨n, cb'⟩ : Sigma fun _ ↦ RedisCallback) ∈ (d.insert name cb).entries →
        ⟨n, cb'⟩ ∈ d.entries ∨ cb' = cb := by
      intro d hd
      rw [AList.entries_insert, List.mem_cons] at hd
      rcases hd with hd | hd
      · exact Or.inr (congrArg Sigma.snd hd)
      · exact Or.inl ((List.kerase_sublist name d.entries).subset hd)
    cases pattern <;> cases p
    · exact (hinsert _ h).imp_left fun hd ↦ Or.inr (Or.inr ⟨false, n, hd⟩)
    · exact Or.inl (Or.inr (Or.inr ⟨true, n, h⟩))
    · exact Or.inl (Or.inr (Or.inr ⟨false, n, h⟩))
    · exact (hinsert _ h).imp_left fun hd ↦ Or.inr (Or.inr ⟨true, n, hd⟩)

theorem Registered.of_subscribeAll {ac : AsyncContext} {pattern : Bool} {cb cb' : RedisCallback}
    {names : List (List UInt8)}
    (h : (names.foldl (fun ac name ↦ ac.subscribeTo pattern cb name) ac).Registered cb') :
    ac.Registered cb' ∨ cb' = cb := by
  induction names generalizing ac with
  | nil => exact Or.inl h
  | cons name names ih => exact (ih h).elim Registered.of_subscribeTo Or.inr

theorem Registered.of_asyncCommand {ac : AsyncContext} {fn : Option ℕ} {privdata : ℕ}
    {cmd : List UInt8} {p : Status × AsyncContext} (hp : ac.asyncCommand fn privdata cmd = some p)
    {cb : RedisCallback} (h : p.2.Registered cb) :
    ac.Registered cb ∨ p.1 = .ok ∧ cb = ⟨fn, privdata⟩ := by
  unfold asyncCommand at hp
  split at hp
  · obtain rfl := Option.some.inj hp
    exact Or.inl h
  · obtain ⟨kind, -, rfl⟩ := Option.map_eq_some_iff.mp hp
    cases hreg : ac.registerCallback kind ⟨fn, privdata⟩ with
    | none =>
        rw [hreg] at h
        exact Or.inl h
    | some ac' =>
        rw [hreg] at h
        have h' : ac'.Registered cb := h
        suffices hs : ac.Registered cb ∨ cb = ⟨fn, privdata⟩ from
          hs.imp_right fun hcb ↦ ⟨rfl, hcb⟩
        cases kind with
        | subscribe pattern names =>
            obtain rfl := Option.some.inj hreg
            have hs : Registered { ac with flags := { ac.flags with subscribed := true } } cb ∨ _ :=
              Registered.of_subscribeAll h'
            exact hs
        | unsubscribe =>
            simp only [registerCallback] at hreg
            split at hreg
            · exact Or.inl (Option.some.inj hreg ▸ h')
            · simp at hreg
        | monitor =>
            obtain rfl := Option.some.inj hreg
            rcases h' with h' | h' | h'
            · exact (List.mem_append.mp h').imp Or.inl List.mem_singleton.mp
            · exact Or.inl (Or.inr (Or.inl h'))
            · exact Or.inl (Or.inr (Or.inr h'))
        | regular =>
            simp only [registerCallback] at hreg
            split at hreg
            · obtain rfl := Option.some.inj hreg
              rcases h' with h' | h' | h'
              · exact Or.inl (Or.inl h')
              · exact (List.mem_append.mp h').imp (fun h' ↦ Or.inr (Or.inl h'))
                  List.mem_singleton.mp
              · exact Or.inl (Or.inr (Or.inr h'))
            · obtain rfl := Option.some.inj hreg
              rcases h' with h' | h' | h'
              · exact (List.mem_append.mp h').imp Or.inl List.mem_singleton.mp
              · exact Or.inl (Or.inr (Or.inl h'))
              · exact Or.inl (Or.inr (Or.inr h'))

theorem registered_of_lookup {ac : AsyncContext} {pattern : Bool} {name : List UInt8}
    {cb : RedisCallback} (h : (ac.callbacks pattern).lookup name = some cb) : ac.Registered cb :=
  Or.inr (Or.inr ⟨pattern, name, AList.mem_lookup_iff.mp h⟩)

theorem unsubscribed_lists (ac : AsyncContext) (pattern : Bool) (name : List UInt8)
    (remaining : ℤ) :
    (ac.unsubscribed pattern name remaining).replies = ac.replies ∧
      (ac.unsubscribed pattern name remaining).invalid = ac.invalid := by
  by_cases hr : remaining = 0 <;> cases pattern <;> simp [unsubscribed, hr]

theorem unsubscribed_callbacks (ac : AsyncContext) (pattern p : Bool) (name : List UInt8)
    (remaining : ℤ) :
    (ac.unsubscribed pattern name remaining).callbacks p =
      if p = pattern then (ac.callbacks p).erase name else ac.callbacks p := by
  by_cases hr : remaining = 0 <;> cases pattern <;> cases p <;> simp [unsubscribed, callbacks, hr]

theorem Registered.of_unsubscribed {ac : AsyncContext} {pattern : Bool} {name : List UInt8}
    {remaining : ℤ} {cb : RedisCallback}
    (h : (ac.unsubscribed pattern name remaining).Registered cb) :
    ac.Registered cb := by
  obtain ⟨hreplies, hinvalid⟩ := unsubscribed_lists ac pattern name remaining
  rcases h with h | h | ⟨p, n, h⟩
  · exact Or.inl (hreplies ▸ h)
  · exact Or.inr (Or.inl (hinvalid ▸ h))
  · rw [unsubscribed_callbacks] at h
    split at h
    · exact Or.inr (Or.inr ⟨p, n, (List.kerase_sublist name _).subset h⟩)
    · exact Or.inr (Or.inr ⟨p, n, h⟩)

theorem shiftReplies_registered {ac ac' : AsyncContext} {cb : RedisCallback}
    (h : ac.shiftReplies = some (cb, ac')) :
    ac.Registered cb ∧ ∀ cb', ac'.Registered cb' → ac.Registered cb' := by
  unfold shiftReplies at h
  split at h
  · simp at h
  · rename_i c rest hreplies
    obtain ⟨rfl, rfl⟩ := Prod.mk.inj (Option.some.inj h)
    refine ⟨Or.inl (by simp [hreplies]), ?_⟩
    rintro cb' (h' | h' | h')
    · exact Or.inl (by simpa [hreplies] using Or.inr h')
    · exact Or.inr (Or.inl h')
    · exact Or.inr (Or.inr h')

theorem shiftInvalid_registered {ac ac' : AsyncContext} {cb : RedisCallback}
    (h : ac.shiftInvalid = some (cb, ac')) :
    ac.Registered cb ∧ ∀ cb', ac'.Registered cb' → ac.Registered cb' := by
  unfold shiftInvalid at h
  split at h
  · simp at h
  · rename_i c rest hinvalid
    obtain ⟨rfl, rfl⟩ := Prod.mk.inj (Option.some.inj h)
    refine ⟨Or.inr (Or.inl (by simp [hinvalid])), ?_⟩
    rintro cb' (h' | h' | h')
    · exact Or.inl h'
    · exact Or.inr (Or.inl (by simpa [hinvalid] using Or.inr h'))
    · exact Or.inr (Or.inr h')

/-- The callback of a reply was registered, or is the one of the turn before. -/
theorem pickCallback_registered {ac ac' : AsyncContext} {cb cb' : RedisCallback} {reply : ReplyTree}
    (h : ac.pickCallback cb reply = some (.run cb' ac')) :
    (ac.Registered cb' ∨ cb' = cb) ∧ ∀ cb'', ac'.Registered cb'' → ac.Registered cb'' := by
  unfold pickCallback at h
  split at h
  · rename_i hs
    obtain ⟨rfl, rfl⟩ := Picked.run.inj (Option.some.inj h)
    exact (shiftReplies_registered hs).imp_left Or.inl
  · split at h
    · simp at h
    · split at h
      · obtain ⟨p, hp, hrun⟩ := Option.map_eq_some_iff.mp h
        obtain ⟨rfl, rfl⟩ := Picked.run.inj hrun
        rcases getSubscribeCallback_cases hp with
          ⟨hcb, hac⟩ | ⟨pattern, name, hlookup, hac | ⟨n, hac⟩⟩ | hs
        · exact ⟨Or.inr hcb, fun _ h' ↦ hac ▸ h'⟩
        · exact ⟨Or.inl (registered_of_lookup hlookup), fun _ h' ↦ hac ▸ h'⟩
        · exact ⟨Or.inl (registered_of_lookup hlookup), fun _ h' ↦ (hac ▸ h').of_unsubscribed⟩
        · exact (shiftInvalid_registered hs).imp_left Or.inl
      · split at h
        · obtain ⟨rfl, rfl⟩ := Picked.run.inj (Option.some.inj h)
          exact ⟨Or.inr rfl, fun _ h' ↦ h'⟩
        · simp at h

/-! ## The callback that is taken -/

/-- `cb` was taken out of the registered callbacks, and nothing else changed. -/
def Takes (ac : AsyncContext) (cb : RedisCallback) (ac' : AsyncContext) : Prop :=
  ∀ cb', ac.Registered cb' → cb' = cb ∨ ac'.Registered cb'

theorem Takes.of_eq {ac : AsyncContext} (cb : RedisCallback) : ac.Takes cb ac :=
  fun _ h ↦ Or.inr h

theorem shiftReplies_takes {ac ac' : AsyncContext} {cb : RedisCallback}
    (h : ac.shiftReplies = some (cb, ac')) : ac.Takes cb ac' := by
  unfold shiftReplies at h
  split at h
  · simp at h
  · rename_i c rest hreplies
    obtain ⟨rfl, rfl⟩ := Prod.mk.inj (Option.some.inj h)
    rintro cb' (h' | h' | h')
    · rw [hreplies, List.mem_cons] at h'
      exact h'.imp_right Or.inl
    · exact Or.inr (Or.inr (Or.inl h'))
    · exact Or.inr (Or.inr (Or.inr h'))

theorem shiftInvalid_takes {ac ac' : AsyncContext} {cb : RedisCallback}
    (h : ac.shiftInvalid = some (cb, ac')) : ac.Takes cb ac' := by
  unfold shiftInvalid at h
  split at h
  · simp at h
  · rename_i c rest hinvalid
    obtain ⟨rfl, rfl⟩ := Prod.mk.inj (Option.some.inj h)
    rintro cb' (h' | h' | h')
    · exact Or.inr (Or.inl h')
    · rw [hinvalid, List.mem_cons] at h'
      exact h'.imp_right fun h' ↦ Or.inr (Or.inl h')
    · exact Or.inr (Or.inr (Or.inr h'))

/-- The other entries stay when one is erased. -/
theorem mem_erase_or {d : CallbackDict} {name n : List UInt8} {cb cb' : RedisCallback}
    (hlookup : d.lookup name = some cb)
    (h : (⟨n, cb'⟩ : Sigma fun _ ↦ RedisCallback) ∈ d.entries) :
    cb' = cb ∨ (⟨n, cb'⟩ : Sigma fun _ ↦ RedisCallback) ∈ (d.erase name).entries := by
  by_cases hn : n = name
  · subst hn
    left
    have hlookup' := AList.mem_lookup_iff.mpr h
    exact Option.some.inj ((Option.mem_def.mp hlookup').symm.trans hlookup)
  · right
    rw [← AList.mem_lookup_iff] at h ⊢
    rwa [AList.lookup_erase_ne hn]

theorem unsubscribed_takes {ac : AsyncContext} {pattern : Bool} {name : List UInt8}
    {cb : RedisCallback} (hlookup : (ac.callbacks pattern).lookup name = some cb)
    (remaining : ℤ) : ac.Takes cb (ac.unsubscribed pattern name remaining) := by
  obtain ⟨hreplies, hinvalid⟩ := unsubscribed_lists ac pattern name remaining
  rintro cb' (h | h | ⟨p, n, h⟩)
  · exact Or.inr (Or.inl (hreplies ▸ h))
  · exact Or.inr (Or.inr (Or.inl (hinvalid ▸ h)))
  · by_cases hp : p = pattern
    · subst hp
      refine (mem_erase_or hlookup h).imp_right fun h' ↦ Or.inr (Or.inr ⟨p, n, ?_⟩)
      rwa [unsubscribed_callbacks, if_pos rfl]
    · refine Or.inr (Or.inr (Or.inr ⟨p, n, ?_⟩))
      rwa [unsubscribed_callbacks, if_neg hp]

theorem pickCallback_takes {ac ac' : AsyncContext} {cb cb' : RedisCallback} {reply : ReplyTree}
    (h : ac.pickCallback cb reply = some (.run cb' ac')) : ac.Takes cb' ac' := by
  unfold pickCallback at h
  split at h
  · rename_i hs
    obtain ⟨rfl, rfl⟩ := Picked.run.inj (Option.some.inj h)
    exact shiftReplies_takes hs
  · split at h
    · simp at h
    · split at h
      · obtain ⟨p, hp, hrun⟩ := Option.map_eq_some_iff.mp h
        obtain ⟨rfl, rfl⟩ := Picked.run.inj hrun
        rcases getSubscribeCallback_cases hp with
          ⟨-, hac⟩ | ⟨pattern, name, hlookup, hac | ⟨n, hac⟩⟩ | hs
        · exact hac ▸ Takes.of_eq _
        · exact hac ▸ Takes.of_eq _
        · exact hac ▸ unsubscribed_takes hlookup n
        · exact shiftInvalid_takes hs
      · split at h
        · obtain ⟨rfl, rfl⟩ := Picked.run.inj (Option.some.inj h)
          exact Takes.of_eq _
        · simp at h

/-! ## The records that callbacks are for -/

/-- All registered callbacks. -/
def registry (ac : AsyncContext) : List RedisCallback :=
  ac.replies ++ ac.invalid ++ ac.channels.entries.map (·.2) ++ ac.patterns.entries.map (·.2)

theorem mem_registry {ac : AsyncContext} {cb : RedisCallback} :
    cb ∈ ac.registry ↔ ac.Registered cb := by
  simp only [registry, List.mem_append, List.mem_map, Registered, or_assoc]
  constructor
  · rintro (h | h | ⟨e, he, rfl⟩ | ⟨e, he, rfl⟩)
    · exact Or.inl h
    · exact Or.inr (Or.inl h)
    · exact Or.inr (Or.inr ⟨false, e.1, he⟩)
    · exact Or.inr (Or.inr ⟨true, e.1, he⟩)
  · rintro (h | h | ⟨pattern, name, h⟩)
    · exact Or.inl h
    · exact Or.inr (Or.inl h)
    · cases pattern
      · exact Or.inr (Or.inr (Or.inl ⟨_, h, rfl⟩))
      · exact Or.inr (Or.inr (Or.inr ⟨_, h, rfl⟩))

end AsyncContext

/-- The callback is a function for the `cmdInfo`. -/
def RedisCallback.For (cb : RedisCallback) (ci : ℕ) : Prop := cb.fn ≠ none ∧ cb.privdata = ci

instance (cb : RedisCallback) : DecidablePred cb.For :=
  fun _ ↦ inferInstanceAs (Decidable (_ ∧ _))

namespace AsyncContext

/-- The `cmdInfo` is the `privdata` of a registered callback. -/
def Holds (ac : AsyncContext) (ci : ℕ) : Prop := ∃ cb ∈ ac.registry, cb.For ci

instance (ac : AsyncContext) : DecidablePred ac.Holds :=
  fun _ ↦ inferInstanceAs (Decidable (∃ cb ∈ _, _))

theorem Holds.of_registered {ac : AsyncContext} {cb : RedisCallback} {ci : ℕ}
    (h : ac.Registered cb) (hfor : cb.For ci) : ac.Holds ci := ⟨cb, mem_registry.mpr h, hfor⟩

theorem Holds.mono {ac ac' : AsyncContext} {ci : ℕ} (h : ac.Holds ci)
    (hsub : ∀ cb, ac.Registered cb → ac'.Registered cb) : ac'.Holds ci := by
  obtain ⟨cb, hcb, hfor⟩ := h
  exact .of_registered (hsub cb (mem_registry.mp hcb)) hfor

/-- What is taken for another record changes nothing for this one. -/
theorem holds_of_takes {ac ac' : AsyncContext} {cb : RedisCallback} {ci : ℕ}
    (htakes : ac.Takes cb ac') (hsub : ∀ cb', ac'.Registered cb' → ac.Registered cb')
    (hfor : ¬cb.For ci) : ac'.Holds ci ↔ ac.Holds ci := by
  constructor
  · exact fun h ↦ h.mono hsub
  · rintro ⟨cb', hcb', hfor'⟩
    rcases htakes cb' (mem_registry.mp hcb') with rfl | h
    · exact absurd hfor' hfor
    · exact .of_registered h hfor'

/-- `__redisAsyncCommand` registers callbacks for its own record only. -/
theorem Holds.of_asyncCommand {ac : AsyncContext} {fn : Option ℕ} {privdata ci : ℕ}
    {cmd : List UInt8} {p : Status × AsyncContext} (hp : ac.asyncCommand fn privdata cmd = some p)
    (h : p.2.Holds ci) : ac.Holds ci ∨ p.1 = .ok ∧ privdata = ci := by
  obtain ⟨cb, hcb, hfor⟩ := h
  rcases (mem_registry.mp hcb).of_asyncCommand hp with hold | ⟨hok, rfl⟩
  · exact Or.inl (.of_registered hold hfor)
  · exact Or.inr ⟨hok, hfor.2⟩

end AsyncContext

end MuxHiredis
