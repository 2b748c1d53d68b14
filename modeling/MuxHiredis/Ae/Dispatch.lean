import MuxHiredis.Ae.Loop

/-!
# What one poll calls

The handlers that `aeProcessEvents` calls for the events that the kernel reports,
whatever the handlers do to the loop.
-/

namespace MuxHiredis

namespace Ae

/-- The descriptor that a handler is called for, and whether it is the write handler. -/
def Call.target : Call → Option (ℕ × Bool)
  | .readable fd _ _ _ => some (fd, false)
  | .writable fd _ _ _ => some (fd, true)
  | .sleep _ | .time _ _ _ _ | .finalizer _ _ _ => none

/-- The call is for the descriptor. -/
def Call.on (fd : ℕ) (c : Call) : Bool := c.target.any fun t ↦ t.1 = fd

/-- What may be called for a fired event. -/
def offered (e : ℕ × Mask) : List (Option (ℕ × Bool)) :=
  (if e.2.1 then [some (e.1, false)] else []) ++ if e.2.2 then [some (e.1, true)] else []

/-- What is called for a fired event whose registration stays as it is. -/
def handlers (fe : FileEvent) (e : ℕ × Mask) : List Call :=
  (if fe.mask.1 && e.2.1 then [.readable e.1 fe.rfileProc fe.clientData e.2] else []) ++
    if fe.mask.2 && e.2.2 && (!(fe.mask.1 && e.2.1) || fe.wfileProc != fe.rfileProc) then
      [.writable e.1 fe.wfileProc fe.clientData e.2]
    else []

/-- No callback changes the size of the loop. -/
def Program.Fixed (P : Program) : Prop := ∀ n setsize, .file (.resize setsize) ∉ P.ops n

/-- The callbacks with these numbers do not change the event of `fd`. -/
def Program.Leaves (P : Program) (first last fd : ℕ) : Prop :=
  ∀ n, first ≤ n → n < last → ∀ op, .file op ∈ P.ops n → ¬Files.Touches fd op

theorem Program.Leaves.mono {P : Program} {a b a' b' fd : ℕ} (h : P.Leaves a b fd) (ha : a ≤ a')
    (hb : b' ≤ b) : P.Leaves a' b' fd :=
  fun n hn hn' ↦ h n (ha.trans hn) (hn'.trans_le hb)

theorem mask_readable (m : Mask) : m ⊓ aeReadable ≠ ⊥ ↔ m.1 = true := by
  revert m
  decide

theorem mask_writable (m : Mask) : m ⊓ aeWritable ≠ ⊥ ↔ m.2 = true := by
  revert m
  decide

/-- What `epoll_wait` can report. -/
structure Kernel.Reports (k : Kernel) (maxevents : ℕ) (ready : List (ℕ × EpollEvents)) : Prop where
  length : ready.length ≤ maxevents
  nodup : (ready.map Prod.fst).Nodup
  watched : ∀ e ∈ ready, ∃ m, k.interest e.1 = some m ∧ (e.2.epollin = true → m.1 = true) ∧
    (e.2.epollout = true → m.2 = true)

namespace EventLoop

/-- What is called, with its data, is what the loop has registered now, and the events that
are passed on ask for it. -/
def Registered (s : EventLoop) : Call → Prop
  | .sleep proc => s.beforesleep = some proc ∨ s.aftersleep = some proc
  | .readable fd proc clientData mask =>
      fd < s.files.setsize ∧ (s.files.events fd).mask.1 = true ∧ mask.1 = true ∧
        proc = (s.files.events fd).rfileProc ∧ clientData = (s.files.events fd).clientData
  | .writable fd proc clientData mask =>
      fd < s.files.setsize ∧ (s.files.events fd).mask.2 = true ∧ mask.2 = true ∧
        proc = (s.files.events fd).wfileProc ∧ clientData = (s.files.events fd).clientData
  | .time _ _ _ _ | .finalizer _ _ _ => False

/-- Callbacks run one after another, and each is registered at that moment. -/
inductive Handled (P : Program) : EventLoop → List Call → EventLoop → Prop
  | nil (s : EventLoop) : Handled P s [] s
  | cons {s s₁ s' : EventLoop} {c : Call} {rest : List Call} : s.Registered c →
      s.callback P c = some s₁ → Handled P s₁ rest s' → Handled P s (c :: rest) s'

variable {P : Program} {s s' : EventLoop} {l l' : List ℕ} {fd : ℕ} {mask : Mask}

theorem Handled.append {s₁ s₂ s₃ : EventLoop} {new new' : List Call} (h : Handled P s₁ new s₂)
    (h' : Handled P s₂ new' s₃) : Handled P s₁ (new ++ new') s₃ := by
  induction h with
  | nil s => exact h'
  | cons hregistered hrun _ ih => exact .cons hregistered hrun (ih h')

/-- What the handlers of fired events come to. -/
structure Fired (P : Program) (s s' : EventLoop) (l l' : List ℕ) (new : List Call) : Prop where
  moves : Moves P s s' l l'
  calls : s'.calls = s.calls ++ new
  untimed : ∀ c ∈ new, c.timeId = none
  complete : s.Complete l → s'.Complete l'
  handled : Handled P s new s'
  setsize : s'.files.setsize = s.files.setsize
  block : s'.files.block = s.files.block
  fired : s'.files.fired = s.files.fired
  kept : ∀ fd, P.Leaves s.calls.length s'.calls.length fd → s'.files.events fd = s.files.events fd

theorem Fired.refl (h : s.Good l) : Fired P s s l l [] where
  moves := .refl h
  calls := (List.append_nil _).symm
  untimed := nofun
  complete h := h
  handled := .nil s
  setsize := rfl
  block := rfl
  fired := rfl
  kept _ _ := rfl

theorem Fired.length_le {new : List Call} (h : Fired P s s' l l' new) :
    s.calls.length ≤ s'.calls.length :=
  h.moves.calls.length_le

theorem Fired.trans {s₁ s₂ s₃ : EventLoop} {l₁ l₂ l₃ : List ℕ} {new new' : List Call}
    (h : Fired P s₁ s₂ l₁ l₂ new) (h' : Fired P s₂ s₃ l₂ l₃ new') :
    Fired P s₁ s₃ l₁ l₃ (new ++ new') where
  moves := h.moves.trans h'.moves
  calls := by rw [h'.calls, h.calls, List.append_assoc]
  untimed := List.forall_mem_append.mpr ⟨h.untimed, h'.untimed⟩
  complete hcomplete := h'.complete (h.complete hcomplete)
  handled := h.handled.append h'.handled
  setsize := h'.setsize.trans h.setsize
  block := h'.block.trans h.block
  fired := h'.fired.trans h.fired
  kept fd hleaves := by
    rw [h'.kept fd (hleaves.mono h.length_le le_rfl), h.kept fd (hleaves.mono le_rfl h'.length_le)]

theorem Registered.untimed {c : Call} (h : s.Registered c) : c.timeId = none := by
  cases c with
  | time id proc clientData now => exact h.elim
  | _ => rfl

theorem callback_fired (h : s.Good l) (hP : P.Proper) (hfixed : P.Fixed) {c : Call}
    (hregistered : s.Registered c) :
    ∃ s' l', s.callback P c = some s' ∧ Fired P s s' l l' [c] := by
  have hc := hregistered.untimed
  obtain ⟨s', added, hrun, hadvances⟩ := callback_advances h hP c
  obtain ⟨hsetsize, hblock, hfired⟩ := hadvances.fixed (hfixed _)
  have hmoves := hadvances.moves h fun id hid ↦ nomatch hc.symm.trans hid
  refine ⟨s', _, hrun, hmoves, hadvances.calls,
    fun c' hc' ↦ (congrArg _ (List.mem_singleton.mp hc')).trans hc,
    fun hcomplete ↦ hcomplete.evolves (s := s.record c) hadvances.evolves,
    .cons hregistered hrun (.nil s'), hsetsize, hblock, hfired,
    fun fd hleaves ↦ hadvances.untouched fd fun op hop ↦ ?_⟩
  refine hleaves s.calls.length le_rfl ?_ op hop
  have hcalls : s'.calls = s.calls ++ [c] := hadvances.calls
  rw [hcalls, List.length_append, List.length_singleton]
  exact Nat.lt_succ_self _

theorem fireWritable_fired (mask : Mask) (h : s.Good l) (hP : P.Proper) (hfixed : P.Fixed)
    (hfd : fd < s.files.setsize) (rfired : Bool) :
    ∃ s' l', s.fireWritable P fd mask rfired = some s' ∧ Fired P s s' l l'
      (if (s.files.events fd).mask.2 && mask.2 && (!rfired ||
          (s.files.events fd).wfileProc != (s.files.events fd).rfileProc) then
        [.writable fd (s.files.events fd).wfileProc (s.files.events fd).clientData mask]
      else []) := by
  unfold fireWritable
  dsimp only
  simp only [mask_writable]
  have hand : ((s.files.events fd).mask ⊓ mask).2 =
      ((s.files.events fd).mask.2 && mask.2) := rfl
  rw [hand]
  by_cases hmask : ((s.files.events fd).mask.2 && mask.2) = true
  · simp only [hmask, if_true, Bool.true_and]
    by_cases hcall : rfired = false ∨ (s.files.events fd).wfileProc ≠ (s.files.events fd).rfileProc
    · have hcall' : (!rfired || (s.files.events fd).wfileProc != (s.files.events fd).rfileProc) =
          true := by simpa using hcall
      rw [if_pos hcall, if_pos hcall']
      obtain ⟨hwrite, hasked⟩ := Bool.and_eq_true_iff.mp hmask
      exact callback_fired h hP hfixed ⟨hfd, hwrite, hasked, rfl, rfl⟩
    · have hcall' : ¬(!rfired || (s.files.events fd).wfileProc !=
          (s.files.events fd).rfileProc) = true := by simpa using hcall
      rw [if_neg hcall, if_neg hcall']
      exact ⟨s, l, rfl, .refl h⟩
  · simp only [hmask, Bool.false_and]
    exact ⟨s, l, rfl, .refl h⟩

/-- The calls for one fired event. -/
theorem fire_fired (mask : Mask) (h : s.Good l) (hP : P.Proper) (hfixed : P.Fixed)
    (hfd : fd < s.files.setsize) :
    ∃ s' l' new, s.fire P fd mask = some s' ∧ Fired P s s' l l' new ∧
      (new.map Call.target).Sublist (offered (fd, mask)) ∧
      (P.Leaves s.calls.length s'.calls.length fd →
        new = handlers (s.files.events fd) (fd, mask)) := by
  have hwrite : ∀ fe : FileEvent, ∀ rfired : Bool,
      ((if fe.mask.2 && mask.2 && (!rfired || fe.wfileProc != fe.rfileProc) then
          [Call.writable fd fe.wfileProc fe.clientData mask]
        else []).map Call.target).Sublist (if mask.2 then [some (fd, true)] else []) := by
    intro fe rfired
    split_ifs with hcall hmask
    · exact .refl _
    · rw [Bool.eq_false_of_not_eq_true hmask, Bool.and_false] at hcall
      cases hcall
    · exact List.nil_sublist _
    · exact .refl _
  unfold fire
  rw [if_neg (not_le.mpr hfd)]
  dsimp only
  simp only [mask_readable]
  have hand : ((s.files.events fd).mask ⊓ mask).1 =
      ((s.files.events fd).mask.1 && mask.1) := rfl
  rw [hand]
  by_cases hmask : ((s.files.events fd).mask.1 && mask.1) = true
  · have hread : mask.1 = true := (Bool.and_eq_true_iff.mp hmask).2
    rw [if_pos hmask]
    have hregistered : s.Registered (.readable fd (s.files.events fd).rfileProc
        (s.files.events fd).clientData mask) :=
      ⟨hfd, (Bool.and_eq_true_iff.mp hmask).1, hread, rfl, rfl⟩
    obtain ⟨s₁, l₁, hrun, hfirst⟩ := callback_fired h hP hfixed hregistered
    have hfd₁ : fd < s₁.files.setsize := hfirst.setsize.symm ▸ hfd
    obtain ⟨s₂, l₂, hrun₂, hsecond⟩ :=
      fireWritable_fired mask hfirst.moves.good hP hfixed hfd₁ true
    refine ⟨s₂, l₂, _, ?_, hfirst.trans hsecond, ?_, fun hleaves ↦ ?_⟩
    · rw [hrun, Option.bind_some, if_neg (not_not_intro hfirst.block), hrun₂]
    · rw [List.map_append, offered, hread]
      exact (List.Sublist.refl _).append (hwrite (s₁.files.events fd) true)
    · rw [hfirst.kept fd (hleaves.mono le_rfl hsecond.length_le), handlers, hmask]
      rfl
  · have hnot : ((s.files.events fd).mask.1 && mask.1) = false := Bool.eq_false_of_not_eq_true hmask
    rw [if_neg hmask]
    obtain ⟨s₁, l₁, hrun, hfirst⟩ := fireWritable_fired mask h hP hfixed hfd false
    refine ⟨s₁, l₁, _, hrun, hfirst, ?_, fun _ ↦ ?_⟩
    · exact (hwrite (s.files.events fd) false).trans (List.sublist_append_right _ _)
    · rw [handlers, hnot]
      rfl

theorem target_offered {e : ℕ × Mask} {o : Option (ℕ × Bool)} (h : o ∈ offered e) :
    ∃ b, o = some (e.1, b) := by
  rw [offered, List.mem_append] at h
  rcases h with h | h <;> split_ifs at h
  · exact ⟨_, List.mem_singleton.mp h⟩
  · cases h
  · exact ⟨_, List.mem_singleton.mp h⟩
  · cases h

theorem on_target {c : Call} {j : ℕ} {b : Bool} (h : c.target = some (j, b)) (fd : ℕ) :
    c.on fd = decide (j = fd) := by
  rw [Call.on, h, Option.any_some]

theorem filter_on_others {new : List Call} {todo : List (ℕ × Mask)} {j : ℕ}
    (hj : ∀ e ∈ todo, e.1 ≠ j) (h : (new.map Call.target).Sublist (todo.flatMap offered)) :
    new.filter (Call.on j) = [] := by
  rw [List.filter_eq_nil_iff]
  intro c hc
  obtain ⟨e, he, ho⟩ := List.mem_flatMap.mp (h.subset (List.mem_map_of_mem hc))
  obtain ⟨b, hb⟩ := target_offered ho
  rw [on_target hb, decide_eq_true_iff]
  exact hj e he

theorem filter_on_self {new : List Call} {e : ℕ × Mask}
    (h : (new.map Call.target).Sublist (offered e)) : new.filter (Call.on e.1) = new := by
  rw [List.filter_eq_self]
  intro c hc
  obtain ⟨b, hb⟩ := target_offered (h.subset (List.mem_map_of_mem hc))
  rw [on_target hb, decide_eq_true_iff]

/-- All fired events, by induction on those that are left. -/
theorem dispatch_fired (h : s.Good l) (hP : P.Proper) (hfixed : P.Fixed)
    (done todo : List (ℕ × Mask)) (hfired : s.files.fired = done ++ todo)
    (hnodup : (todo.map Prod.fst).Nodup) (hfds : ∀ e ∈ todo, e.1 < s.files.setsize) :
    ∃ s' l' new, dispatch P todo.length done.length s = some s' ∧ Fired P s s' l l' new ∧
      (new.map Call.target).Sublist (todo.flatMap offered) ∧
      ∀ e ∈ todo, P.Leaves s.calls.length s'.calls.length e.1 →
        new.filter (Call.on e.1) = handlers (s.files.events e.1) e := by
  induction todo generalizing s l done with
  | nil => exact ⟨s, l, [], rfl, .refl h, .slnil, nofun⟩
  | cons e todo ih =>
      obtain ⟨hnot, hnodup⟩ := List.nodup_cons.mp hnodup
      obtain ⟨hfd, hfds⟩ := List.forall_mem_cons.mp hfds
      have hget : s.files.fired[done.length]? = some e := by
        rw [hfired, List.getElem?_append_right le_rfl, Nat.sub_self, List.getElem?_cons_zero]
      obtain ⟨s₁, l₁, new₁, hrun₁, hfirst, hsub₁, hexact₁⟩ := fire_fired e.2 h hP hfixed hfd
      have hfired₁ : s₁.files.fired = (done ++ [e]) ++ todo := by
        rw [hfirst.fired, hfired, List.append_assoc, List.singleton_append]
      obtain ⟨s₂, l₂, new₂, hrun₂, hrest, hsub₂, hexact₂⟩ :=
        ih hfirst.moves.good _ hfired₁ hnodup fun e' he' ↦ hfirst.setsize.symm ▸ hfds e' he'
      refine ⟨s₂, l₂, new₁ ++ new₂, ?_, hfirst.trans hrest, ?_, fun e' he' hleaves ↦ ?_⟩
      · rw [List.length_append, List.length_singleton] at hrun₂
        rw [List.length_cons, dispatch, hget]
        simp only [hrun₁, Option.bind_some, hrun₂]
      · rw [List.map_append, List.flatMap_cons]
        exact hsub₁.append hsub₂
      · rw [List.filter_append]
        rcases List.mem_cons.mp he' with rfl | he'
        · have hothers : ∀ e ∈ todo, e.1 ≠ e'.1 := fun e he heq ↦
            hnot (heq ▸ List.mem_map_of_mem he)
          rw [filter_on_others hothers hsub₂, List.append_nil, filter_on_self hsub₁]
          exact hexact₁ (hleaves.mono le_rfl hrest.length_le)
        · have hne : e'.1 ≠ e.1 := fun heq ↦ hnot (heq ▸ List.mem_map_of_mem he')
          have hsub₁' : (new₁.map Call.target).Sublist ([e].flatMap offered) := by
            rwa [List.flatMap_singleton]
          rw [filter_on_others (by simpa using hne.symm) hsub₁', List.nil_append,
            hexact₂ e' he' (hleaves.mono hfirst.length_le le_rfl),
            hfirst.kept e'.1 (hleaves.mono le_rfl hrest.length_le)]

/-! ## A poll -/

/-- The events that were reported, as `aeApiPoll` leaves them in `fired`. -/
def polled (ready : List (ℕ × EpollEvents)) : List (ℕ × Mask) :=
  ready.map fun e ↦ (e.1, e.2.mask)

theorem callSleep_fired (h : s.Good l) (hP : P.Proper) (hfixed : P.Fixed) {proc : Option ℕ}
    (hproc : s.beforesleep = proc ∨ s.aftersleep = proc) :
    ∃ s' l' new, s.callSleep P proc = some s' ∧ Fired P s s' l l' new ∧
      ∀ c ∈ new, c.target = none := by
  cases proc with
  | none => exact ⟨s, l, [], rfl, .refl h, nofun⟩
  | some proc =>
      have hregistered : s.Registered (.sleep proc) := hproc
      obtain ⟨s', l', hrun, hfired⟩ := callback_fired h hP hfixed hregistered
      refine ⟨s', l', _, hrun, hfired, fun c hc ↦ ?_⟩
      rw [List.mem_singleton.mp hc]
      rfl

/-- Without a registered descriptor nothing is reported. -/
theorem ready_nil (h : s.Good l) (hmaxfd : s.files.maxfd = -1) {ready : List (ℕ × EpollEvents)}
    (hready : s.files.kernel.Reports s.files.setsize ready) : ready = [] := by
  rw [List.eq_nil_iff_forall_not_mem]
  intro e he
  obtain ⟨m, hm, -⟩ := hready.watched e he
  obtain ⟨-, hfd, rfl, hne⟩ := h.watched e.1 m hm
  have hle := h.tracked.largest e.1 hfd hne
  omega

/-- The descriptors that are reported are in range. -/
theorem ready_lt (h : s.Good l) {ready : List (ℕ × EpollEvents)}
    (hready : s.files.kernel.Reports s.files.setsize ready) :
    ∀ e ∈ polled ready, e.1 < s.files.setsize := by
  intro e he
  obtain ⟨e', he', rfl⟩ := List.mem_map.mp he
  obtain ⟨m, hm, -⟩ := hready.watched e' he'
  exact (h.watched e'.1 m hm).2.1

theorem filter_on_none {new : List Call} (h : ∀ c ∈ new, c.target = none) (j : ℕ) :
    new.filter (Call.on j) = [] := by
  rw [List.filter_eq_nil_iff]
  intro c hc
  rw [Call.on, h c hc]
  nofun

theorem filter_target_none {new : List Call} (h : ∀ c ∈ new, c.target = none) :
    (new.map Call.target).filter Option.isSome = [] := by
  rw [List.filter_eq_nil_iff]
  intro o ho
  obtain ⟨c, hc, rfl⟩ := List.mem_map.mp ho
  rw [h c hc]
  nofun

/-- What a poll comes to. -/
structure Polled (P : Program) (ready : List (ℕ × EpollEvents)) (s s' : EventLoop)
    (l l' : List ℕ) (new : List Call) : Prop where
  moves : Moves P s s' l l'
  calls : s'.calls = s.calls ++ new
  untimed : ∀ c ∈ new, c.timeId = none
  complete : s.Complete l → s'.Complete l'
  handled : ∃ s₀ : EventLoop, s₀.files.events = s.files.events ∧
    s₀.files.setsize = s.files.setsize ∧ s₀.aftersleep = s.aftersleep ∧ s₀.calls = s.calls ∧
    Handled P s₀ new s'
  offered : ((new.map Call.target).filter Option.isSome).Sublist ((polled ready).flatMap offered)
  handlers : ∀ e ∈ polled ready, P.Leaves s.calls.length s'.calls.length e.1 →
    new.filter (Call.on e.1) = handlers (s.files.events e.1) e

theorem aeApiPoll_moves (h : s.Good l) (timeout : ℤ) (ready : List (ℕ × EpollEvents))
    (readings : ℕ) (hreadings : s.readings ≤ readings) :
    Moves P s (({ s with readings := readings } : EventLoop).aeApiPoll timeout ready) l l := by
  have htracked : s.files.Tracked := h.tracked
  have hquiet : Quiet P s (({ s with readings := readings } : EventLoop).aeApiPoll timeout ready)
      l l :=
    ⟨rfl, rfl, hreadings, List.prefix_append _ _, rfl, fun _ h ↦ h, rfl, rfl, fun _ h ↦ h,
      fun _ _ h ↦ h⟩
  apply hquiet.moves
  exact ⟨⟨htracked.range, htracked.largest, htracked.registered⟩, h.watched, h.chained⟩

theorem pollOnce_polled (h : s.Good l) (hP : P.Proper) (hfixed : P.Fixed) (flags : Flags)
    (shortest : Option TimeEvent) {ready : List (ℕ × EpollEvents)}
    (hready : s.files.kernel.Reports s.files.setsize ready) :
    ∃ s' l' new, s.pollOnce P flags ready shortest = some (ready.length, s') ∧
      s.polls ++ [(s.pollTimeout P shortest flags.dontWait).1] <+: s'.polls ∧
      Polled P ready s s' l l' new := by
  obtain ⟨timeout, readings, htimeout, hreadings⟩ : ∃ timeout readings,
      s.pollTimeout P shortest flags.dontWait = (timeout, { s with readings := readings }) ∧
        s.readings ≤ readings := by
    cases shortest with
    | none => exact ⟨_, _, rfl, le_rfl⟩
    | some te => exact ⟨_, _, rfl, Nat.le_succ _⟩
  have hmoves₁ := aeApiPoll_moves (P := P) h timeout ready readings hreadings
  generalize hs₁ : ({ s with readings := readings } : EventLoop).aeApiPoll timeout ready = s₁
    at hmoves₁
  have hcalls₁ : s₁.calls = s.calls := hs₁ ▸ rfl
  have hevents₁ : s₁.files.events = s.files.events := hs₁ ▸ rfl
  have hsetsize₁ : s₁.files.setsize = s.files.setsize := hs₁ ▸ rfl
  have hfired₁ : s₁.files.fired = polled ready := hs₁ ▸ rfl
  have hpolls₁ : s₁.polls = s.polls ++ [timeout] := hs₁ ▸ rfl
  obtain ⟨s₂, l₂, woken, hwoken, hfired₂, hnone⟩ : ∃ s₂ l₂ woken,
      (if flags.callAfterSleep then s₁.callSleep P s₁.aftersleep else some s₁) = some s₂ ∧
        Fired P s₁ s₂ l l₂ woken ∧ ∀ c ∈ woken, c.target = none := by
    split_ifs
    · exact callSleep_fired hmoves₁.good hP hfixed (Or.inr rfl)
    · exact ⟨s₁, l, [], rfl, .refl hmoves₁.good, nofun⟩
  have hfds : ∀ e ∈ polled ready, e.1 < s₂.files.setsize := by
    rw [hfired₂.setsize, hsetsize₁]
    exact ready_lt h hready
  have hnodup : ((polled ready).map Prod.fst).Nodup := by
    rw [polled, List.map_map]
    exact hready.nodup
  obtain ⟨s₃, l₃, new, hrun, hfired₃, hsub, hexact⟩ := dispatch_fired hfired₂.moves.good hP hfixed
    [] (polled ready) (hfired₂.fired.trans hfired₁) hnodup hfds
  have hall := hfired₂.trans hfired₃
  refine ⟨s₃, l₃, woken ++ new, ?_, ?_, ⟨hmoves₁.trans hall.moves, ?_, hall.untimed,
    fun hcomplete ↦ ?_, ⟨s₁, hevents₁, hsetsize₁, hs₁ ▸ rfl, hcalls₁, hall.handled⟩, ?_,
    fun e he hleaves ↦ ?_⟩⟩
  · rw [polled, List.length_map, List.length_nil] at hrun
    unfold pollOnce
    rw [htimeout]
    dsimp only
    rw [hs₁, hwoken, Option.bind_some, hrun]
    rfl
  · rw [htimeout, ← hpolls₁]
    exact hall.moves.polls
  · rw [hall.calls, hcalls₁]
  · apply hall.complete
    rw [← hs₁]
    exact hcomplete
  · rw [List.map_append, List.filter_append, filter_target_none hnone, List.nil_append]
    exact List.filter_sublist.trans hsub
  · have hfirst : s.calls.length ≤ s₁.calls.length := hmoves₁.calls.length_le
    rw [List.filter_append, filter_on_none hnone, List.nil_append,
      hexact e he (hleaves.mono (hfirst.trans hfired₂.length_le) le_rfl),
      hfired₂.kept e.1 (hleaves.mono hfirst hfired₃.length_le), hevents₁]

/-- Every poll calls the handlers of what is registered, and no others. -/
theorem processFileEvents_polled (h : s.Good l) (hP : P.Proper) (hfixed : P.Fixed) (flags : Flags)
    {ready : List (ℕ × EpollEvents)} (hready : s.files.kernel.Reports s.files.setsize ready) :
    ∃ s' l' new, s.processFileEvents P flags ready = some (ready.length, s') ∧
      (flags.timeEvents = true → flags.dontWait = false → ∃ shortest,
        s.timers.aeSearchNearestTimer = some shortest ∧
          s.polls ++ [(s.pollTimeout P shortest false).1] <+: s'.polls) ∧
      Polled P ready s s' l l' new := by
  unfold processFileEvents
  dsimp only
  by_cases hpoll : s.files.maxfd ≠ -1 ∨ flags.timeEvents = true ∧ flags.dontWait = false
  · rw [if_pos hpoll]
    obtain ⟨shortest, hshortest⟩ : ∃ shortest,
        (if flags.timeEvents = true ∧ flags.dontWait = false then s.timers.aeSearchNearestTimer
          else some none) = some shortest := by
      split_ifs
      · obtain ⟨r, hr, -⟩ :=
          Timers.searchNearest_spec s.timers h.chained.linked h.chained.length_le none
        exact ⟨r, hr⟩
      · exact ⟨none, rfl⟩
    obtain ⟨s', l', new, hrun, hpolls, hpolled⟩ :=
      pollOnce_polled h hP hfixed flags shortest hready
    refine ⟨s', l', new, by rw [hshortest]; exact hrun, fun htime hwait ↦ ⟨shortest, ?_, ?_⟩,
      hpolled⟩
    · rwa [if_pos ⟨htime, hwait⟩] at hshortest
    · rwa [hwait] at hpolls
  · rw [if_neg hpoll]
    have hmaxfd : s.files.maxfd = -1 := not_not.mp (not_or.mp hpoll).1
    obtain rfl := ready_nil h hmaxfd hready
    refine ⟨s, l, [], rfl, fun htime hwait ↦ ?_, .refl h, (List.append_nil _).symm, nofun,
      fun h ↦ h, ⟨s, rfl, rfl, rfl, rfl, .nil s⟩, .slnil, nofun⟩
    exact absurd (Or.inr ⟨htime, hwait⟩) hpoll

end EventLoop

end Ae

end MuxHiredis
