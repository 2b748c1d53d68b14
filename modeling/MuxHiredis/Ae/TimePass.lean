import MuxHiredis.Ae.Loop

/-!
# A pass over the time events

`processTimeEvents` walks along a chain that its callbacks add to and mark.  What is
proved of a pass holds for all callbacks.
-/

namespace MuxHiredis

namespace Ae

namespace Timers

variable {t : Timers} {l front rest : List ℕ} {a p : ℕ} {te : TimeEvent}

/-- A cell that is not in the chain is freed. -/
theorem Chained.free (h : t.Chained l) (ha : a ∉ l) :
    Chained { t with cells := Function.update t.cells a none } l := by
  have hne : ∀ b ∈ l, b ≠ a := fun b hb heq ↦ ha (heq ▸ hb)
  have hcell : ∀ b ∈ l, Function.update t.cells a none b = t.cells b :=
    fun b hb ↦ Function.update_of_ne (hne b hb) ..
  refine ⟨h.linked.congr fun b hb ↦ congrArg (Option.map TimeEvent.next) (hcell b hb),
    fun b hb ↦ ?_, h.nonneg, fun b hb te hte ↦ ?_,
    h.decreasing.imp_of_mem fun {b c} hb hc hbc te te' hte hte' ↦ ?_⟩
  · by_cases hba : b = a
    · exact absurd (by rw [hba]; exact Function.update_self ..) hb
    · exact h.fresh b (by rwa [← Function.update_of_ne hba none t.cells])
  · exact h.ids b hb te ((hcell b hb).symm.trans hte)
  · exact hbc te te' ((hcell b hb).symm.trans hte) ((hcell c hc).symm.trans hte')

/-- A cell of the chain is changed, but not its pointer, and it is only marked. -/
theorem Chained.set (h : t.Chained l) {te' : TimeEvent} (ha : t.cells a = some te)
    (hnext : te'.next = te.next) (hid : te'.id = te.id ∨ te'.id = -1) :
    (t.set a te').Chained l := by
  have hcell : ∀ b, (t.set a te').cells b = if b = a then some te' else t.cells b :=
    fun b ↦ Function.update_apply ..
  have hlive : ∀ b te₁, (t.set a te').cells b = some te₁ → te₁.id ≠ -1 →
      ∃ te₀, t.cells b = some te₀ ∧ te₀.id = te₁.id := by
    intro b te₁ hte₁ hlive
    rw [hcell] at hte₁
    split_ifs at hte₁ with hb
    · obtain rfl := Option.some.inj hte₁
      exact ⟨te, hb ▸ ha, (hid.resolve_right hlive).symm⟩
    · exact ⟨te₁, hte₁, rfl⟩
  refine ⟨h.linked.congr fun b _ ↦ ?_, fun b hb ↦ ?_, h.nonneg, fun b hb te₁ hte₁ hid₁ ↦ ?_,
    h.decreasing.imp fun {b c} hbc te₁ te₂ hte₁ hte₂ hid₁ hid₂ ↦ ?_⟩
  · rw [next, next, hcell]
    split_ifs with hb
    · rw [hb, ha, Option.map_some, Option.map_some, hnext]
    · rfl
  · rw [hcell] at hb
    split_ifs at hb with hba
    · exact h.fresh b (by rw [hba, ha]; exact Option.some_ne_none _)
    · exact h.fresh b hb
  · obtain ⟨te₀, hte₀, heq⟩ := hlive b te₁ hte₁ hid₁
    have hrange := h.ids b hb te₀ hte₀ (heq ▸ hid₁)
    rwa [heq] at hrange
  · obtain ⟨te₃, hte₃, heq₃⟩ := hlive b te₁ hte₁ hid₁
    obtain ⟨te₄, hte₄, heq₄⟩ := hlive c te₂ hte₂ hid₂
    have hless := hbc te₃ te₄ hte₃ hte₄ (heq₃ ▸ hid₁) (heq₄ ▸ hid₂)
    rwa [heq₃, heq₄] at hless

/-- The cells are the same, but for their times. -/
theorem Chained.congr {t' : Timers} (h : t.Chained l) (hhead : t'.timeEventHead = t.timeEventHead)
    (hnextId : t'.timeEventNextId = t.timeEventNextId) (hallocated : t'.allocated = t.allocated)
    (hnext : ∀ a, t'.next a = t.next a)
    (hid : ∀ a te', t'.cells a = some te' → ∃ te, t.cells a = some te ∧ te.id = te'.id) :
    t'.Chained l := by
  refine ⟨hhead ▸ h.linked.congr fun a _ ↦ hnext a,
    fun a ha ↦ hallocated ▸ h.fresh a fun hnone ↦ ?_, hnextId ▸ h.nonneg,
    fun a ha te hte hlive ↦ ?_, h.decreasing.imp fun {a b} hab te te' hte hte' hlive hlive' ↦ ?_⟩
  · obtain ⟨te', hte'⟩ := Option.ne_none_iff_exists'.mp ha
    obtain ⟨te, hte, -⟩ := hid a te' hte'
    exact nomatch hnone.symm.trans hte
  · obtain ⟨te₀, hte₀, heq⟩ := hid a te hte
    rw [hnextId, ← heq]
    exact h.ids a ha te₀ hte₀ (heq ▸ hlive)
  · obtain ⟨te₀, hte₀, heq⟩ := hid a te hte
    obtain ⟨te₁, hte₁, heq'⟩ := hid b te' hte'
    rw [← heq, ← heq']
    exact hab te₀ te₁ hte₀ hte₁ (heq ▸ hlive) (heq' ▸ hlive')

/-- The head is moved behind some cells. -/
theorem Chained.behead (h : t.Chained (front ++ rest)) :
    Chained { t with timeEventHead := rest.head? } rest := by
  obtain ⟨r, -, hr⟩ := Linked.append_iff.mp h.linked
  refine ⟨hr.head?_eq ▸ hr, h.fresh, h.nonneg, fun a ha ↦ h.ids a (List.mem_append_right _ ha),
    (List.pairwise_append.mp h.decreasing).2.1⟩

/-- A cell is taken out of the chain. -/
theorem Chained.bypass (h : t.Chained (front ++ [p] ++ a :: rest)) (hp : t.cells p = some te) :
    (t.set p { te with next := rest.head? }).Chained (front ++ [p] ++ rest) := by
  have hnodup := h.linked.nodup
  obtain ⟨r, hfront, hrest⟩ := Linked.append_iff.mp h.linked
  obtain ⟨rfl, q, ha, hq⟩ := Linked.cons_iff.mp hrest
  have hcell : ∀ b, (t.set p { te with next := rest.head? }).cells b =
      if b = p then some { te with next := rest.head? } else t.cells b :=
    fun b ↦ Function.update_apply ..
  have hkeep : ∀ b, b ≠ p → (t.set p { te with next := rest.head? }).next b = t.next b := by
    intro b hb
    rw [next, next, hcell, if_neg hb]
  rw [List.append_assoc, List.nodup_append] at hnodup
  obtain ⟨-, hp_rest, hdisjoint⟩ := hnodup
  have hpf : ∀ b ∈ front, b ≠ p := fun b hb ↦ hdisjoint b hb p (by simp)
  have hpr : ∀ b ∈ rest, b ≠ p := by
    rintro b hb rfl
    exact (List.nodup_cons.mp hp_rest).1 (List.mem_cons_of_mem _ hb)
  have hids : ∀ b te₁, (t.set p { te with next := rest.head? }).cells b = some te₁ →
      ∃ te₀, t.cells b = some te₀ ∧ te₀.id = te₁.id := by
    intro b te₁ hte₁
    rw [hcell] at hte₁
    split_ifs at hte₁ with hb
    · obtain rfl := Option.some.inj hte₁
      exact ⟨te, hb ▸ hp, rfl⟩
    · exact ⟨te₁, hte₁, rfl⟩
  have hsub : (front ++ [p] ++ rest).Sublist (front ++ [p] ++ a :: rest) :=
    (List.Sublist.refl _).append (List.sublist_cons_self _ _)
  refine ⟨?_, fun b hb ↦ ?_, h.nonneg, fun b hb te₁ hte₁ hlive ↦ ?_,
    (h.decreasing.sublist hsub).imp fun {b c} hbc te₁ te₂ hte₁ hte₂ hid₁ hid₂ ↦ ?_⟩
  · apply Linked.append (hfront.relink (fun b hb ↦ hkeep b (hpf b hb)) ?_)
      (hq.congr fun b hb ↦ hkeep b (hpr b hb))
    rw [next, hcell, if_pos rfl, ← hq.head?_eq]
    rfl
  · rw [hcell] at hb
    split_ifs at hb with hbp
    · exact h.fresh b (by rw [hbp, hp]; exact Option.some_ne_none _)
    · exact h.fresh b hb
  · obtain ⟨te₀, hte₀, heq⟩ := hids b te₁ hte₁
    have hrange := h.ids b (hsub.subset hb) te₀ hte₀ (heq ▸ hlive)
    rwa [heq] at hrange
  · obtain ⟨te₃, hte₃, heq₃⟩ := hids b te₁ hte₁
    obtain ⟨te₄, hte₄, heq₄⟩ := hids c te₂ hte₂
    have hless := hbc te₃ te₄ hte₃ hte₄ (heq₃ ▸ hid₁) (heq₄ ▸ hid₂)
    rwa [heq₃, heq₄] at hless

/-- The event that is marked is not there any more, whatever its callback did. -/
theorem Evolves.not_live_set {t' : Timers} {added : List ℕ} {te' : TimeEvent}
    (h : t.Evolves t' added) (hchained : t.Chained l) (hmem : a ∈ l) (ha : t.cells a = some te)
    (hid : te.id ≠ -1) (hmark : te'.id = -1) : ¬(t'.set a te').Live (added ++ l) te.id := by
  rintro ⟨b, hb, te₁, hte₁, hsame⟩
  change Function.update t'.cells a (some te') b = some te₁ at hte₁
  by_cases hba : b = a
  · rw [hba, Function.update_self] at hte₁
    rw [← Option.some.inj hte₁, hmark] at hsame
    exact hid hsame.symm
  · rw [Function.update_of_ne hba] at hte₁
    rcases List.mem_append.mp hb with hb | hb
    · have hnew := h.newId b hb te₁ hte₁ (hsame ▸ hid)
      have hold := (hchained.ids a hmem te ha hid).2
      omega
    · obtain ⟨te₀, hte₀⟩ := hchained.cell hb
      obtain rfl := h.back hte₀ hte₁ (hsame ▸ hid)
      exact hba (hchained.unique hb hmem hte₀ ha hsame (hsame ▸ hid))

end Timers

/-- The callbacks with these numbers do not delete the event. -/
def Program.Spares (P : Program) (first last : ℕ) (id : ℤ) : Prop :=
  ∀ n, first ≤ n → n < last → .deleteTime id ∉ P.ops n

theorem Program.Spares.mono {P : Program} {b c b' c' : ℕ} {id : ℤ} (h : P.Spares b c id)
    (hb : b ≤ b') (hc : c' ≤ c) : P.Spares b' c' id :=
  fun n hn hn' ↦ h n (hb.trans hn) (hn'.trans_le hc)

/-- The finalizers that were called created no events. -/
def Program.Tame (P : Program) (calls : List Call) : Prop :=
  ∀ n addr proc clientData, calls[n]? = some (.finalizer addr proc clientData) →
    ∀ op ∈ P.ops n, ¬op.Creates

theorem Program.Tame.of_continued {P : Program} {calls calls' : List Call} (h : P.Tame calls')
    (hcalls : calls <+: calls') : P.Tame calls := by
  obtain ⟨more, rfl⟩ := hcalls
  intro n addr proc clientData hn
  apply h n addr proc clientData
  rw [List.getElem?_append_left (List.getElem?_eq_some_iff.mp hn).1, hn]

namespace EventLoop

variable {P : Program} {s s' : EventLoop} {l l' front rest : List ℕ} {a : ℕ} {te : TimeEvent}
  {prev : Option ℕ}

/-- `prev` is the last of the cells that the pass left behind, if it left any. -/
inductive Behind : Option ℕ → List ℕ → Prop
  | start (front : List ℕ) : Behind none front
  | after (front : List ℕ) (p : ℕ) : Behind (some p) (front ++ [p])

/-- What stays in front when an event is removed: without a `prev` the head moves,
and whatever stood in front is lost. -/
def left : Option ℕ → List ℕ → List ℕ
  | none, _ => []
  | some _, front => front

/-- What a removal leaves of the cells. -/
structure Unlinked (t t' : Timers) (front rest : List ℕ) (a : ℕ) (prev : Option ℕ) : Prop where
  chained : t'.Chained (left prev front ++ rest)
  rest : ∀ b ∈ rest, t'.cells b = t.cells b
  cell : t'.cells a = t.cells a
  back : ∀ b te', t'.cells b = some te' →
    ∃ te, t.cells b = some te ∧ te.id = te'.id ∧ te.when_ms = te'.when_ms
  allocated : t'.allocated = t.allocated
  nextId : t'.timeEventNextId = t.timeEventNextId

theorem unlink_spec {t : Timers} (h : t.Chained (front ++ a :: rest)) (hb : Behind prev front)
    (ha : t.cells a = some te) :
    ∃ t', unlink prev te.next t = some t' ∧ Unlinked t t' front rest a prev := by
  have hnext : te.next = rest.head? := by
    obtain ⟨r, -, hr⟩ := Linked.append_iff.mp h.linked
    obtain ⟨rfl, q, hq, hrest⟩ := Linked.cons_iff.mp hr
    rw [Timers.next_eq ha] at hq
    exact (Option.some.inj hq).trans hrest.head?_eq
  rw [hnext]
  cases hb with
  | start =>
      have hchained : t.Chained ((front ++ [a]) ++ rest) := by
        rwa [List.append_assoc, List.singleton_append]
      exact ⟨_, rfl, hchained.behead, fun _ _ ↦ rfl, rfl, fun b te' hte' ↦ ⟨te', hte', rfl, rfl⟩,
        rfl, rfl⟩
  | after front p =>
      have hp : p ∈ front ++ [p] ++ a :: rest := by simp
      obtain ⟨te₀, hte₀⟩ := h.cell hp
      have hne : ∀ b ∈ a :: rest, b ≠ p := by
        rintro b hb rfl
        have hdisjoint := (List.nodup_append.mp h.linked.nodup).2.2
        exact hdisjoint b (by simp) b hb rfl
      have hcell : ∀ b, (t.set p { te₀ with next := rest.head? }).cells b =
          if b = p then some { te₀ with next := rest.head? } else t.cells b :=
        fun b ↦ Function.update_apply ..
      refine ⟨_, congrArg (Option.map _) hte₀, h.bypass hte₀, fun b hb ↦ ?_, ?_,
        fun b te' hte' ↦ ?_, rfl, rfl⟩
      · rw [hcell, if_neg (hne b (List.mem_cons_of_mem _ hb))]
      · rw [hcell, if_neg (hne a List.mem_cons_self)]
      · rw [hcell] at hte'
        split_ifs at hte' with hbp
        · obtain rfl := Option.some.inj hte'
          exact ⟨te₀, hbp ▸ hte₀, rfl, rfl⟩
        · exact ⟨te', hte', rfl, rfl⟩

/-- What happens to events that the pass has not come to. -/
structure Carries (P : Program) (s s' : EventLoop) (rest : List ℕ) : Prop where
  kept : ∀ a ∈ rest, ∀ te, s.timers.cells a = some te → s'.timers.cells a = some te ∨
    s'.timers.cells a = some { te with id := aeDeletedEventId }
  spared : ∀ a ∈ rest, ∀ te, s.timers.cells a = some te →
    P.Spares s.calls.length s'.calls.length te.id → s'.timers.cells a = some te

theorem Carries.of_eq (h : ∀ a ∈ rest, s'.timers.cells a = s.timers.cells a) :
    Carries P s s' rest where
  kept a ha _ hte := Or.inl ((h a ha).trans hte)
  spared a ha _ hte _ := (h a ha).trans hte

theorem Carries.trans {s₁ s₂ s₃ : EventLoop} (h : Carries P s₁ s₂ rest)
    (h' : Carries P s₂ s₃ rest) (hcalls : s₁.calls <+: s₂.calls) (hcalls' : s₂.calls <+: s₃.calls) :
    Carries P s₁ s₃ rest where
  kept a ha te hte := by
    rcases h.kept a ha te hte with hte | hte
    · exact h'.kept a ha te hte
    · rcases h'.kept a ha _ hte with hte | hte
      · exact Or.inr hte
      · exact Or.inr hte
  spared a ha te hte hspares :=
    h'.spared a ha te (h.spared a ha te hte (hspares.mono le_rfl hcalls'.length_le))
      (hspares.mono hcalls.length_le le_rfl)

theorem Carries.mono (h : Carries P s s' l) (hsub : rest ⊆ l) : Carries P s s' rest where
  kept a ha := h.kept a (hsub ha)
  spared a ha := h.spared a (hsub ha)

theorem Advances.carries {added : List ℕ} {c : Call}
    (h : Advances P (P.ops s.calls.length) (s.record c) s' l added) : Carries P s s' rest where
  kept a _ te hte := h.evolves.kept a te hte
  spared a _ te hte hspares := by
    apply h.unmarked a te hte (hspares s.calls.length le_rfl ?_)
    have hcalls : s'.calls = s.calls ++ [c] := h.calls
    rw [hcalls, List.length_append, List.length_singleton]
    exact Nat.lt_succ_self _

/-- The calls of a finalizer. -/
def finalizing (a : ℕ) (te : TimeEvent) : List Call :=
  match te.finalizerProc with
  | none => []
  | some proc => [.finalizer a proc te.clientData]

theorem finalizing_untimed (a : ℕ) (te : TimeEvent) :
    (finalizing a te).filterMap Call.timeId = [] := by
  unfold finalizing
  cases te.finalizerProc <;> rfl

/-- The finalizer of an event that was removed. -/
theorem callFinalizer_spec (h : s.Good l) (hP : P.Proper) (rest : List ℕ) (a : ℕ)
    (te : TimeEvent) :
    ∃ s' added, callFinalizer P a te s = some s' ∧ Moves P s s' l (added ++ l) ∧
      s.timers.Evolves s'.timers added ∧ Carries P s s' rest ∧
      s'.calls = s.calls ++ finalizing a te ∧ (P.Tame s'.calls → added = []) := by
  unfold callFinalizer finalizing
  cases te.finalizerProc with
  | none =>
      exact ⟨s, [], rfl, .refl h, .refl h.chained, .of_eq fun _ _ ↦ rfl, (List.append_nil _).symm,
        fun _ ↦ rfl⟩
  | some proc =>
      obtain ⟨s', added, hrun, hadvances⟩ :=
        callback_advances h hP (.finalizer a proc te.clientData)
      have hcalls : s'.calls = s.calls ++ [.finalizer a proc te.clientData] := hadvances.calls
      refine ⟨s', added, hrun, hadvances.moves h nofun, hadvances.evolves, hadvances.carries,
        hcalls, fun htame ↦ hadvances.quiet (htame s.calls.length a proc te.clientData ?_)⟩
      rw [hcalls, List.getElem?_append_right le_rfl, Nat.sub_self, List.getElem?_cons_zero]

/-- An event is removed, its finalizer is called, and its cell is freed.  Without a
`prev` what stands in front of it is lost. -/
theorem reclaim_spec (h : s.Good (front ++ a :: rest)) (hP : P.Proper) (hb : Behind prev front)
    (ha : s.timers.cells a = some te) :
    ∃ s' added, s.reclaim P a te prev = some s' ∧
      Moves P s s' (front ++ a :: rest) (added ++ left prev front ++ rest) ∧
      Carries P s s' rest ∧ s'.calls = s.calls ++ finalizing a te ∧
      s'.timers.cells a = none ∧ (P.Tame s'.calls → added = []) ∧
      (s.Complete (front ++ a :: rest) → left prev front = front →
        s'.Complete (added ++ left prev front ++ rest)) := by
  obtain ⟨t, hunlink, hu⟩ := unlink_spec h.chained hb ha
  have hgood : ({ s with timers := t } : EventLoop).Good (left prev front ++ rest) :=
    ⟨h.tracked, h.watched, hu.chained⟩
  have hsub : left prev front ++ rest ⊆ front ++ a :: rest := by
    intro b hmem
    rcases List.mem_append.mp hmem with hmem | hmem
    · cases hb with
      | start => cases hmem
      | after => exact List.mem_append_left _ hmem
    · exact List.mem_append_right _ (List.mem_cons_of_mem _ hmem)
  have hmoves₁ : Moves P s { s with timers := t } (front ++ a :: rest)
      (left prev front ++ rest) := by
    refine Quiet.moves ⟨rfl, rfl, le_rfl, List.prefix_rfl, rfl,
      fun _ hearly b te' hte' ↦ ?_, hu.nextId, hu.allocated,
      fun b hb ↦ ?_, ?_⟩ hgood
    · obtain ⟨te₀, hte₀, -, heq⟩ := hu.back b te' hte'
      exact heq ▸ hearly b te₀ hte₀
    · by_contra hsome
      obtain ⟨te', hte'⟩ := Option.ne_none_iff_exists'.mp hsome
      obtain ⟨te₀, hte₀, -⟩ := hu.back b te' hte'
      rw [hb] at hte₀
      cases hte₀
    · rintro id - ⟨b, hmem, te', hte', hid⟩
      obtain ⟨te₀, hte₀, heq, -⟩ := hu.back b te' hte'
      exact ⟨b, hsub hmem, te₀, hte₀, heq.trans hid⟩
  obtain ⟨s₂, added, hcall, hmoves₂, hevolves, hcarries, hcalls, htame⟩ :=
    callFinalizer_spec hgood hP rest a te
  have ha_t : t.cells a = some te := hu.cell.trans ha
  have hnodup := h.chained.linked.nodup
  have hlt : a < t.allocated := hu.chained.fresh a (by rw [ha_t]; nofun)
  have hnot : a ∉ added ++ (left prev front ++ rest) := by
    rw [List.nodup_append] at hnodup
    obtain ⟨-, hrest, hdisjoint⟩ := hnodup
    intro hmem
    rcases List.mem_append.mp hmem with hmem | hmem
    · exact absurd hlt (not_lt.mpr (hevolves.new a hmem))
    · rcases List.mem_append.mp hmem with hmem | hmem
      · cases hb with
        | start => cases hmem
        | after => exact hdisjoint a hmem a List.mem_cons_self rfl
      · exact (List.nodup_cons.mp hrest).1 hmem
  have hfree : ∀ b, b ≠ a → Function.update s₂.timers.cells a none b = s₂.timers.cells b :=
    fun b hb ↦ Function.update_of_ne hb ..
  have hne : ∀ b ∈ added ++ (left prev front ++ rest), b ≠ a := fun b hb heq ↦ hnot (heq ▸ hb)
  generalize hs₃ : ({ s₂ with timers := { s₂.timers with
    cells := Function.update s₂.timers.cells a none } } : EventLoop) = s₃
  have hcells₃ : s₃.timers.cells = Function.update s₂.timers.cells a none := hs₃ ▸ rfl
  have hcalls₃ : s₃.calls = s₂.calls := hs₃ ▸ rfl
  have hmoves₃ : Moves P s₂ s₃ (added ++ (left prev front ++ rest))
      (added ++ (left prev front ++ rest)) := by
    rw [← hs₃]
    refine Quiet.moves ⟨rfl, rfl, le_rfl, List.prefix_rfl, rfl,
      fun _ hearly b te' hte' ↦ ?_, rfl, rfl, fun b hb ↦ ?_, ?_⟩
      ⟨hmoves₂.good.tracked, hmoves₂.good.watched, hmoves₂.good.chained.free hnot⟩
    · have hba : b ≠ a := by
        rintro rfl
        exact nomatch (Function.update_self ..).symm.trans hte'
      exact hearly b te' ((hfree b hba).symm.trans hte')
    · by_cases hba : b = a
      · rw [hba]
        exact Function.update_self ..
      · exact (hfree b hba).trans hb
    · rintro id - ⟨b, hmem, te', hte', hid⟩
      exact ⟨b, hmem, te', (hfree b (hne b hmem)).symm.trans hte', hid⟩
  refine ⟨s₃, added, ?_, ?_, ?_, ?_, ?_, fun h ↦ htame (hcalls₃ ▸ h), fun hcomplete hleft b hb ↦ ?_⟩
  · unfold reclaim
    rw [hunlink, Option.bind_some, hcall, Option.map_some, hs₃]
  · rw [List.append_assoc]
    exact (hmoves₁.trans hmoves₂).trans hmoves₃
  · have hfirst : Carries P s { s with timers := t } rest := .of_eq hu.rest
    have hlast : Carries P s₂ s₃ rest := by
      refine .of_eq fun b hb ↦ ?_
      rw [hcells₃, hfree b (hne b (List.mem_append_right _ (List.mem_append_right _ hb)))]
    exact (hfirst.trans hcarries hmoves₁.calls hmoves₂.calls).trans hlast
      (hmoves₁.calls.trans hmoves₂.calls) hmoves₃.calls
  · rw [hcalls₃, hcalls]
  · rw [hcells₃, Function.update_self]
  · have hcomplete₁ : ({ s with timers := t } : EventLoop).Complete
        (a :: (left prev front ++ rest)) := by
      intro c hc
      obtain ⟨te', hte'⟩ := Option.ne_none_iff_exists'.mp hc
      obtain ⟨te₀, hte₀, -⟩ := hu.back c te' hte'
      have hmem := hcomplete c (by rw [hte₀]; nofun)
      rw [hleft]
      simp only [List.mem_append, List.mem_cons] at hmem ⊢
      tauto
    rw [hcells₃] at hb
    have hba : b ≠ a := by
      rintro rfl
      exact hb (Function.update_self ..)
    rw [hfree b hba] at hb
    have hmem := hcomplete₁.evolves hevolves b hb
    simp only [List.mem_append, List.mem_cons] at hmem ⊢
    tauto

/-- The cell of a called event is changed, and the others are not. -/
theorem set_moves (h : s.Good l) {te' : TimeEvent} (ha : s.timers.cells a = some te)
    (hnext : te'.next = te.next) (hid : te'.id = te.id ∨ te'.id = -1)
    (hearly : P.Clocked → te.when_ms < 1000 → te'.when_ms < 1000) {readings : ℕ}
    (hreadings : s.readings ≤ readings) :
    Moves P s { s with timers := s.timers.set a te', readings := readings } l l := by
  have hcell : ∀ b, (s.timers.set a te').cells b = if b = a then some te' else s.timers.cells b :=
    fun b ↦ Function.update_apply ..
  refine Quiet.moves ⟨rfl, rfl, hreadings, List.prefix_rfl, rfl,
    fun hclock hall b te₁ hte₁ ↦ ?_, rfl, rfl, fun b hb ↦ ?_, ?_⟩
    ⟨h.tracked, h.watched, h.chained.set ha hnext hid⟩
  · change (s.timers.set a te').cells b = some te₁ at hte₁
    rw [hcell] at hte₁
    split_ifs at hte₁
    · rw [← Option.some.inj hte₁]
      exact hearly hclock (hall a te ha)
    · exact hall b te₁ hte₁
  · change (s.timers.set a te').cells b = none
    rw [hcell, if_neg, hb]
    rintro rfl
    exact nomatch ha.symm.trans hb
  · rintro id hlow ⟨b, hmem, te₁, hte₁, rfl⟩
    change (s.timers.set a te').cells b = some te₁ at hte₁
    rw [hcell] at hte₁
    split_ifs at hte₁ with hba
    · obtain rfl := Option.some.inj hte₁
      refine ⟨a, hba ▸ hmem, te, ha, (hid.resolve_right ?_).symm⟩
      omega
    · exact ⟨b, hmem, te₁, hte₁, rfl⟩

/-- What the call of an event that is due comes to. -/
structure Turned (P : Program) (s s' : EventLoop) (l l' rest : List ℕ) (a : ℕ) (te : TimeEvent)
    (now : ℤ × ℤ) : Prop where
  moves : Moves P s s' l l'
  carries : Carries P s s' rest
  calls : s'.calls = s.calls ++ [.time te.id te.timeProc te.clientData now]
  next : s'.timers.next a = some te.next
  complete : s.Complete l → s'.Complete l'
  nomore : P.retval s.calls.length = aeNomore → s'.Gone l' te.id (s.calls.length + 1)

/-- The cell is changed after the callback. -/
theorem Advances.turned {s₁ : EventLoop} {added : List ℕ} {now : ℤ × ℤ} {te₁ : TimeEvent}
    {readings : ℕ} (h : s.Good (front ++ a :: rest)) (ha : s.timers.cells a = some te)
    (hid : te.id ≠ -1)
    (hadvances : Advances P (P.ops s.calls.length)
      (s.record (.time te.id te.timeProc te.clientData now)) s₁ (front ++ a :: rest) added)
    (hte₁ : s₁.timers.cells a = some te₁) (te₂ : TimeEvent) (hnext : te₂.next = te₁.next)
    (hid₂ : te₂.id = te₁.id ∨ te₂.id = -1)
    (hnomore : P.retval s.calls.length = aeNomore → te₂.id = -1)
    (hearly : P.Clocked → te₁.when_ms < 1000 → te₂.when_ms < 1000)
    (hreadings : s₁.readings ≤ readings) :
    Turned P s { s₁ with timers := s₁.timers.set a te₂, readings := readings } (front ++ a :: rest)
      (added ++ (front ++ a :: rest)) rest a te now := by
  have hmem : a ∈ front ++ a :: rest := by simp
  have hrest : ∀ b ∈ rest, b ≠ a := by
    rintro b hb rfl
    exact (List.nodup_cons.mp (List.nodup_append.mp h.chained.linked.nodup).2.1).1 hb
  have hcalls : s₁.calls = s.calls ++ [.time te.id te.timeProc te.clientData now] := hadvances.calls
  have hmoves₁ := hadvances.moves h fun id hid ↦ ⟨a, hmem, te, ha, Option.some.inj hid⟩
  have hmoves₂ := set_moves hmoves₁.good hte₁ hnext hid₂ hearly hreadings
  have hnext₁ : te₁.next = te.next := by
    rcases hadvances.evolves.kept a te ha with hte | hte
    · rw [Option.some.inj (hte₁.symm.trans hte)]
    · rw [Option.some.inj (hte₁.symm.trans hte)]
  have hrange := h.chained.ids a hmem te ha hid
  refine ⟨hmoves₁.trans hmoves₂, ?_, hcalls, ?_, fun hcomplete b hb ↦ ?_, fun hretval ↦
    ⟨hrange.1, hrange.2.trans_le hmoves₁.nextId, ?_, fun m c hm hc ↦ ?_⟩⟩
  · refine (hadvances.carries).trans (.of_eq fun b hb ↦ ?_) hmoves₁.calls hmoves₂.calls
    exact Function.update_of_ne (hrest b hb) ..
  · rw [Timers.next_eq (Function.update_self ..), hnext, hnext₁]
  · apply hcomplete.evolves hadvances.evolves b
    by_cases hba : b = a
    · rw [hba, hte₁]
      nofun
    · exact fun hnone ↦ hb ((Function.update_of_ne hba ..).trans hnone)
  · exact hadvances.evolves.not_live_set h.chained hmem ha hid (hnomore hretval)
  · change s₁.calls[m]? = some c at hc
    rw [hcalls, List.getElem?_eq_none (by simpa using hm)] at hc
    cases hc

/-- An event that is due is called, and then set again or marked. -/
theorem callTimer_spec (h : s.Good (front ++ a :: rest)) (hP : P.Proper)
    (ha : s.timers.cells a = some te) (hid : te.id ≠ -1) (now : ℤ × ℤ) :
    ∃ s' added, s.callTimer P a te now = some s' ∧
      Turned P s s' (front ++ a :: rest) (added ++ (front ++ a :: rest)) rest a te now := by
  obtain ⟨s₁, added, hrun, hadvances⟩ :=
    callback_advances h hP (.time te.id te.timeProc te.clientData now)
  obtain ⟨te₁, hte₁⟩ : ∃ te₁, s₁.timers.cells a = some te₁ := by
    rcases hadvances.evolves.kept a te ha with hte | hte
    · exact ⟨_, hte⟩
    · exact ⟨_, hte⟩
  unfold callTimer
  rw [hrun, Option.bind_some, hte₁, Option.map_some]
  dsimp only
  split_ifs with hretval
  · have hnomore : P.retval s.calls.length = aeNomore → te₁.id = -1 :=
      fun hnomore ↦ absurd hnomore hretval
    generalize hwhen : aeAddMillisecondsToNow (P.clock s₁.readings) (P.retval s.calls.length) = when
    have hearly : P.Clocked → te₁.when_ms < 1000 → when.2 < 1000 :=
      fun hclock _ ↦ hwhen ▸ aeAddMillisecondsToNow_early (hclock _) _
    refine ⟨_, added, rfl, ?_⟩
    have hturned := hadvances.turned h ha hid hte₁
      { te₁ with when_sec := when.1, when_ms := when.2 } rfl (Or.inl rfl) hnomore hearly
      (Nat.le_succ _)
    rw [← hwhen] at hturned
    exact hturned
  · have hturned := hadvances.turned h ha hid hte₁ { te₁ with id := aeDeletedEventId } rfl
      (Or.inr rfl) (fun _ ↦ rfl) (fun _ hold ↦ hold) le_rfl
    exact ⟨_, added, rfl, hturned⟩

/-! ## The pass -/

/-- The identifier of an event that is not marked. -/
def liveId (s : EventLoop) (a : ℕ) : Option ℤ :=
  (s.timers.cells a).bind fun te ↦ if te.id = -1 then none else some te.id

def liveIds (s : EventLoop) (rest : List ℕ) : List ℤ := rest.filterMap s.liveId

theorem liveId_of_ne (ha : s.timers.cells a = some te) (hid : te.id ≠ -1) :
    s.liveId a = some te.id := by
  unfold liveId
  rw [ha, Option.bind_some, if_neg hid]

/-- A reading between the two states gave `now`. -/
def Shown (P : Program) (s s' : EventLoop) (now : ℤ × ℤ) : Prop :=
  ∃ k, s.readings ≤ k ∧ k < s'.readings ∧ now = P.clock k

theorem Shown.mono {s₁ s₂ : EventLoop} {now : ℤ × ℤ} (h : Shown P s₁ s₂ now)
    (hfirst : s.readings ≤ s₁.readings) (hlast : s₂.readings ≤ s'.readings) :
    Shown P s s' now := by
  obtain ⟨k, hlow, hhigh, hnow⟩ := h
  exact ⟨k, hfirst.trans hlow, hhigh.trans_le hlast, hnow⟩

/-- What a pass over the cells of `rest` comes to, when events are due by their times
under `f`. -/
structure Passed (P : Program) (f : TimeEvent → TimeEvent) (s s' : EventLoop)
    (l l' rest : List ℕ) (new : List Call) : Prop where
  moves : Moves P s s' l l'
  calls : s'.calls = s.calls ++ new
  order : (new.filterMap Call.timeId).Sublist (s.liveIds rest)
  due : ∀ id proc clientData now, .time id proc clientData now ∈ new → ∃ a ∈ rest, ∃ te,
    s.timers.cells a = some te ∧ te.id = id ∧ id ≠ -1 ∧ te.timeProc = proc ∧
      te.clientData = clientData ∧ EventLoop.due (f te) now ∧ Shown P s s' now
  called : ∀ a ∈ rest, ∀ te, s.timers.cells a = some te → te.id ≠ -1 →
    P.Spares s.calls.length s'.calls.length te.id →
    (∀ k, s.readings ≤ k → k < s'.readings → EventLoop.due (f te) (P.clock k)) →
    ∃ now, .time te.id te.timeProc te.clientData now ∈ new
  removed : ∀ a ∈ rest, ∀ te, s.timers.cells a = some te → te.id = -1 →
    s'.timers.cells a = none ∧ finalizing a te ⊆ new
  nomore : ∀ n id proc clientData now, s.calls.length ≤ n →
    s'.calls[n]? = some (.time id proc clientData now) → P.retval n = aeNomore →
    s'.Gone l' id (n + 1)
  complete : P.Tame s'.calls → s.Complete l → s'.Complete l'

theorem liveId_kept (h : Carries P s s' rest) (ha : a ∈ rest)
    (hcell : s.timers.cells a = some te) : s'.liveId a = s.liveId a ∨ s'.liveId a = none := by
  rcases h.kept a ha te hcell with hte | hte
  · left
    rw [liveId, liveId, hte, hcell]
  · right
    rw [liveId, hte, Option.bind_some]
    exact if_pos rfl

theorem liveIds_sublist (h : Carries P s s' rest) (hcell : ∀ a ∈ rest, s.timers.cells a ≠ none) :
    (s'.liveIds rest).Sublist (s.liveIds rest) := by
  induction rest with
  | nil => exact .refl _
  | cons a rest ih =>
      have htail := ih (h.mono (List.subset_cons_self _ _)) fun b hb ↦
        hcell b (List.mem_cons_of_mem _ hb)
      obtain ⟨te, hte⟩ := Option.ne_none_iff_exists'.mp (hcell a List.mem_cons_self)
      unfold liveIds at htail ⊢
      rw [List.filterMap_cons, List.filterMap_cons]
      rcases liveId_kept h List.mem_cons_self hte with hsame | hnone
      · rw [hsame]
        cases s.liveId a with
        | none => exact htail
        | some id => exact htail.cons_cons id
      · rw [hnone]
        cases s.liveId a with
        | none => exact htail
        | some id => exact htail.cons id

/-- First one event, and then the others. -/
theorem Passed.cons {s₁ : EventLoop} {l₁ : List ℕ} {new₁ new : List Call}
    (h₁ : Passed P id s s₁ l l₁ [a] new₁) (hcarries : Carries P s s₁ rest)
    (hcell : ∀ b ∈ a :: rest, s.timers.cells b ≠ none ∧ b < s.timers.allocated)
    (h : Passed P id s₁ s' l₁ l' rest new) : Passed P id s s' l l' (a :: rest) (new₁ ++ new) where
  moves := h₁.moves.trans h.moves
  calls := by rw [h.calls, h₁.calls, List.append_assoc]
  order := by
    have hsub := h.order.trans
      (liveIds_sublist hcarries fun b hb ↦ (hcell b (List.mem_cons_of_mem _ hb)).1)
    have hsplit : s.liveIds (a :: rest) = s.liveIds [a] ++ s.liveIds rest := by
      change ([a] ++ rest).filterMap s.liveId = _
      exact List.filterMap_append
    rw [List.filterMap_append, hsplit]
    exact h₁.order.append hsub
  due id proc clientData now hc := by
    rcases List.mem_append.mp hc with hc | hc
    · obtain ⟨b, hb, te, hte, hid, hlive, hproc, hdata, hdue, hshown⟩ :=
        h₁.due id proc clientData now hc
      exact ⟨b, List.mem_singleton.mp hb ▸ List.mem_cons_self, te, hte, hid, hlive, hproc, hdata,
        hdue, hshown.mono le_rfl h.moves.readings⟩
    · obtain ⟨b, hb, te, hte, hid, hlive, hproc, hdata, hdue, hshown⟩ :=
        h.due id proc clientData now hc
      have hmem : b ∈ a :: rest := List.mem_cons_of_mem _ hb
      obtain ⟨te₀, hte₀⟩ := Option.ne_none_iff_exists'.mp (hcell b hmem).1
      have hsame : te = te₀ := by
        rcases hcarries.kept b hb te₀ hte₀ with hkept | hkept
        · exact Option.some.inj (hte.symm.trans hkept)
        · rw [Option.some.inj (hte.symm.trans hkept)] at hid
          exact absurd hid.symm hlive
      exact ⟨b, hmem, te, hsame ▸ hte₀, hid, hlive, hproc, hdata, hdue,
        hshown.mono h₁.moves.readings le_rfl⟩
  called b hb te hte hlive hspares hdue := by
    have hle₁ := h₁.moves.calls.length_le
    have hle := h.moves.calls.length_le
    rcases List.mem_cons.mp hb with rfl | hb
    · obtain ⟨now, hnow⟩ := h₁.called b (List.mem_singleton_self _) te hte hlive
        (hspares.mono le_rfl hle) fun k hk hk' ↦ hdue k hk (hk'.trans_le h.moves.readings)
      exact ⟨now, List.mem_append_left _ hnow⟩
    · obtain ⟨now, hnow⟩ := h.called b hb te
        (hcarries.spared b hb te hte (hspares.mono le_rfl hle)) hlive (hspares.mono hle₁ le_rfl)
        fun k hk hk' ↦ hdue k (h₁.moves.readings.trans hk) hk'
      exact ⟨now, List.mem_append_right _ hnow⟩
  removed b hb te hte hid := by
    rcases List.mem_cons.mp hb with rfl | hmem
    · obtain ⟨hnone, hcalls⟩ := h₁.removed b (List.mem_singleton_self _) te hte hid
      have hlt := (hcell b List.mem_cons_self).2.trans_le h₁.moves.allocated
      exact ⟨h.moves.freed b hlt hnone, fun c hc ↦ List.mem_append_left _ (hcalls hc)⟩
    · have hmark : ∀ te₁ : TimeEvent, s₁.timers.cells b = some te₁ → te₁.id = -1 →
          finalizing b te₁ = finalizing b te →
          s'.timers.cells b = none ∧ finalizing b te ⊆ new₁ ++ new := by
        intro te₁ hte₁ hid₁ hsame
        obtain ⟨hnone, hcalls⟩ := h.removed b hmem te₁ hte₁ hid₁
        exact ⟨hnone, fun c hc ↦ List.mem_append_right _ (hcalls (hsame ▸ hc))⟩
      rcases hcarries.kept b hmem te hte with hkept | hkept
      · exact hmark te hkept hid rfl
      · exact hmark _ hkept rfl rfl
  nomore n id proc clientData now hn hc hretval := by
    by_cases hmid : n < s₁.calls.length
    · have hback := (getElem?_of_continued h.moves.calls hmid).symm.trans hc
      exact (h₁.nomore n id proc clientData now hn hback hretval).continues h.moves.toContinues
    · exact h.nomore n id proc clientData now (not_lt.mp hmid) hc hretval
  complete htame hcomplete :=
    h.complete htame (h₁.complete (htame.of_continued h.moves.calls) hcomplete)

theorem Passed.nil (h : s.Good l) : Passed P id s s l l [] [] where
  moves := .refl h
  calls := (List.append_nil _).symm
  order := .slnil
  due := nofun
  called := nofun
  removed := nofun
  nomore n id proc clientData now hn hc := by
    rw [List.getElem?_eq_none hn] at hc
    cases hc
  complete _ h := h

theorem Behind.append (h : Behind prev front) (added : List ℕ) :
    Behind prev (added ++ left prev front) := by
  cases h with
  | start => exact .start _
  | after front p =>
      rw [left, ← List.append_assoc]
      exact .after _ p

theorem reading_moves (h : s.Good l) :
    Moves P s { s with readings := s.readings + 1 } l l :=
  Quiet.moves ⟨rfl, rfl, Nat.le_succ _, List.prefix_rfl, rfl, fun _ h ↦ h, rfl, rfl, fun _ h ↦ h,
    fun _ _ h ↦ h⟩ ⟨h.tracked, h.watched, h.chained⟩

/-- The turn of a marked event. -/
theorem reclaim_passed (h : s.Good (front ++ a :: rest)) (hP : P.Proper) (hb : Behind prev front)
    (htame : prev = none → P.Tame s.calls → front = []) (ha : s.timers.cells a = some te)
    (hid : te.id = -1) :
    ∃ s' added, s.reclaim P a te prev = some s' ∧
      Passed P id s s' (front ++ a :: rest) (added ++ left prev front ++ rest) [a]
        (finalizing a te) ∧
      Carries P s s' rest ∧ (P.Tame s'.calls → added = []) := by
  obtain ⟨s', added, hrun, hmoves, hcarries, hcalls, hnone, hadded, hcomplete⟩ :=
    reclaim_spec h hP hb ha
  have hone : ∀ b ∈ [a], ∀ te', s.timers.cells b = some te' → te' = te := by
    intro b hmem te' hte'
    rw [List.mem_singleton.mp hmem, ha] at hte'
    exact (Option.some.inj hte').symm
  have htimes := finalizing_untimed a te
  refine ⟨s', added, hrun, ⟨hmoves, hcalls, ?_, fun id proc clientData now hc ↦ ?_,
    fun b hmem te' hte' hlive ↦ ?_, fun b hmem te' hte' _ ↦ ?_,
    fun n id proc clientData now hn hc ↦ ?_, fun ht hall ↦ ?_⟩, hcarries, hadded⟩
  · rw [htimes]
    exact List.nil_sublist _
  · cases List.filterMap_eq_nil_iff.mp htimes _ hc
  · rw [hone b hmem te' hte'] at hlive
    exact absurd hid hlive
  · rw [hone b hmem te' hte', List.mem_singleton.mp hmem]
    exact ⟨hnone, fun c hc ↦ hc⟩
  · rw [hcalls, List.getElem?_append_right hn] at hc
    cases List.filterMap_eq_nil_iff.mp htimes _ (List.mem_of_getElem? hc)
  · apply hcomplete hall
    cases hb with
    | start => exact (htame rfl (ht.of_continued hmoves.calls)).symm
    | after _ _ => rfl

/-- The turn of an event that is due. -/
theorem callTimer_passed (h : s.Good (front ++ a :: rest)) (hP : P.Proper)
    (ha : s.timers.cells a = some te) (hid : te.id ≠ -1) (hdue : due te (P.clock s.readings)) :
    ∃ s' added, ({ s with readings := s.readings + 1 } : EventLoop).callTimer P a te
        (P.clock s.readings) = some s' ∧
      Passed P id s s' (front ++ a :: rest) (added ++ (front ++ a :: rest)) [a]
        [.time te.id te.timeProc te.clientData (P.clock s.readings)] ∧
      Carries P s s' rest ∧ s'.timers.next a = some te.next := by
  have hmoves₀ := reading_moves (P := P) h
  obtain ⟨s', added, hrun, hturned⟩ :=
    callTimer_spec hmoves₀.good hP ha hid (P.clock s.readings)
  have hcalls : s'.calls =
      s.calls ++ [.time te.id te.timeProc te.clientData (P.clock s.readings)] := hturned.calls
  have hone : ∀ b ∈ [a], ∀ te', s.timers.cells b = some te' → te' = te := by
    intro b hmem te' hte'
    rw [List.mem_singleton.mp hmem, ha] at hte'
    exact (Option.some.inj hte').symm
  refine ⟨s', added, hrun, ⟨hmoves₀.trans hturned.moves, hcalls, ?_,
    fun id proc clientData now hc ↦ ?_, fun b hmem te' hte' _ _ _ ↦ ?_,
    fun b hmem te' hte' hmark ↦ ?_, fun n id proc clientData now hn hc hretval ↦ ?_,
    fun _ hall ↦ hturned.complete hall⟩, ⟨hturned.carries.kept, hturned.carries.spared⟩,
    hturned.next⟩
  · have hlive : s.liveIds [a] = [te.id] := List.filterMap_cons_some (liveId_of_ne ha hid)
    rw [hlive]
    exact .refl _
  · obtain ⟨rfl, rfl, rfl, rfl⟩ := Call.time.inj (List.mem_singleton.mp hc)
    exact ⟨a, List.mem_singleton_self _, te, ha, rfl, hid, rfl, rfl, hdue, s.readings, le_rfl,
      hturned.moves.readings, rfl⟩
  · rw [hone b hmem te' hte']
    exact ⟨_, List.mem_singleton_self _⟩
  · rw [hone b hmem te' hte'] at hmark
    exact absurd hmark hid
  · rw [hcalls, List.getElem?_append_right hn, List.getElem?_singleton] at hc
    split_ifs at hc with hzero
    obtain ⟨rfl, -⟩ := Call.time.inj (Option.some.inj hc)
    obtain rfl : n = s.calls.length := by omega
    exact hturned.nomore hretval

/-- The turn of an event that is not due. -/
theorem skip_passed (h : s.Good (front ++ a :: rest)) (ha : s.timers.cells a = some te)
    (hid : te.id ≠ -1) (hdue : ¬due te (P.clock s.readings)) :
    Passed P id s { s with readings := s.readings + 1 } (front ++ a :: rest) (front ++ a :: rest)
      [a] [] := by
  have hone : ∀ b ∈ [a], ∀ te', s.timers.cells b = some te' → te' = te := by
    intro b hmem te' hte'
    rw [List.mem_singleton.mp hmem, ha] at hte'
    exact (Option.some.inj hte').symm
  refine ⟨reading_moves h, (List.append_nil _).symm, List.nil_sublist _, nofun,
    fun b hmem te' hte' _ _ hall ↦ ?_, fun b hmem te' hte' hmark ↦ ?_,
    fun n id proc clientData now hn hc ↦ ?_, fun _ hall ↦ hall⟩
  · rw [hone b hmem te' hte'] at hall
    exact absurd (hall s.readings le_rfl (Nat.lt_succ_self _)) hdue
  · rw [hone b hmem te' hte'] at hmark
    exact absurd hmark hid
  · exact nomatch (List.getElem?_eq_none hn).symm.trans hc

/-- All turns, by induction on the cells that the pass has not come to. -/
theorem timeLoop_passed (hP : P.Proper) {maxId : ℤ} (hlow : -1 ≤ maxId) {fuel : ℕ}
    (h : s.Good (front ++ rest)) (hb : Behind prev front)
    (htame : prev = none → P.Tame s.calls → front = [])
    (hmax : ∀ a ∈ rest, ∀ te, s.timers.cells a = some te → te.id ≤ maxId)
    (hfuel : rest.length ≤ fuel) (processed : ℕ) :
    ∃ n s' l' new, timeLoop P maxId fuel prev rest.head? processed s = some (n, s') ∧
      n = processed + (new.filterMap Call.timeId).length ∧
      Passed P id s s' (front ++ rest) l' rest new := by
  induction rest generalizing s front prev fuel processed with
  | nil => exact ⟨processed, s, _, [], by cases fuel <;> rfl, rfl, .nil h⟩
  | cons a rest ih =>
      obtain ⟨fuel, rfl⟩ : ∃ n, fuel = n + 1 := ⟨fuel - 1, by
        rw [List.length_cons] at hfuel
        omega⟩
      have hfuel := Nat.le_of_succ_le_succ hfuel
      have hmem : ∀ b ∈ a :: rest, b ∈ front ++ a :: rest := fun b ↦ List.mem_append_right _
      have hcell : ∀ b ∈ a :: rest, s.timers.cells b ≠ none ∧ b < s.timers.allocated := by
        intro b hb
        obtain ⟨te, hte⟩ := h.chained.cell (hmem b hb)
        exact ⟨by rw [hte]; nofun, h.chained.lt_allocated (hmem b hb)⟩
      obtain ⟨te, hte⟩ := h.chained.cell (hmem a List.mem_cons_self)
      have hnext : te.next = rest.head? := by
        obtain ⟨r, -, hr⟩ := Linked.append_iff.mp h.chained.linked
        obtain ⟨rfl, q, hq, hrest⟩ := Linked.cons_iff.mp hr
        rw [Timers.next_eq hte] at hq
        exact (Option.some.inj hq).trans hrest.head?_eq
      have hmax' : ∀ s₁ : EventLoop, Carries P s s₁ rest →
          ∀ b ∈ rest, ∀ te', s₁.timers.cells b = some te' → te'.id ≤ maxId := by
        intro s₁ hcarries b hb te' hte'
        obtain ⟨te₀, hte₀⟩ := Option.ne_none_iff_exists'.mp (hcell b (List.mem_cons_of_mem _ hb)).1
        rcases hcarries.kept b hb te₀ hte₀ with hkept | hkept
        · rw [Option.some.inj (hte'.symm.trans hkept)]
          exact hmax b (List.mem_cons_of_mem _ hb) te₀ hte₀
        · rw [Option.some.inj (hte'.symm.trans hkept)]
          exact hlow
      rw [List.head?_cons, timeLoop, hte]
      dsimp only
      by_cases hid : te.id = aeDeletedEventId
      · rw [if_pos hid]
        obtain ⟨s₁, added, hrun, hpassed, hcarries, hadded⟩ := reclaim_passed h hP hb htame hte hid
        have htame' : prev = none → P.Tame s₁.calls → added ++ left prev front = [] := by
          rintro rfl ht
          rw [hadded ht]
          rfl
        obtain ⟨n, s', l', new, hrest, hn, hpassed'⟩ := ih hpassed.moves.good (hb.append added)
          htame' (hmax' s₁ hcarries) hfuel processed
        refine ⟨n, s', l', _, ?_, ?_, hpassed.cons hcarries hcell hpassed'⟩
        · rw [hrun, Option.bind_some, hnext]
          exact hrest
        · rw [hn, List.filterMap_append, finalizing_untimed, List.nil_append]
      · rw [if_neg hid, if_neg (not_lt.mpr (hmax a List.mem_cons_self te hte)), aeGetTime]
        dsimp only
        by_cases hdue : due te (P.clock s.readings)
        · rw [if_pos hdue]
          obtain ⟨s₁, added, hrun, hpassed, hcarries, hnext₁⟩ := callTimer_passed h hP hte hid hdue
          have hsplit : added ++ (front ++ a :: rest) = (added ++ front) ++ [a] ++ rest := by simp
          have hgood₁ : s₁.Good ((added ++ front) ++ [a] ++ rest) := hsplit ▸ hpassed.moves.good
          obtain ⟨n, s', l', new, hrest, hn, hpassed'⟩ := ih hgood₁ (.after _ a) nofun
            (hmax' s₁ hcarries) hfuel (processed + 1)
          rw [hsplit] at hpassed
          refine ⟨n, s', l', _, ?_, ?_, hpassed.cons hcarries hcell hpassed'⟩
          · rw [hrun, Option.bind_some, hnext₁, Option.bind_some, hnext]
            exact hrest
          · rw [hn, List.filterMap_append, List.length_append, ← add_assoc]
            rfl
        · rw [if_neg hdue, hnext]
          have hpassed := skip_passed h hte hid hdue
          have hsplit : front ++ a :: rest = front ++ [a] ++ rest := by simp
          have hgood₁ : ({ s with readings := s.readings + 1 } : EventLoop).Good
              (front ++ [a] ++ rest) := hsplit ▸ hpassed.moves.good
          have hcarries : Carries P s { s with readings := s.readings + 1 } rest :=
            .of_eq fun _ _ ↦ rfl
          obtain ⟨n, s', l', new, hrest, hn, hpassed'⟩ := ih hgood₁ (.after _ a) nofun
            (hmax' _ hcarries) hfuel processed
          rw [hsplit] at hpassed ⊢
          exact ⟨n, s', l', _, hrest, hn, hpassed.cons hcarries hcell hpassed'⟩

/-- The time of an event for this pass: when the clock went back since the last pass,
the event is set to second 0. -/
def rewound (s : EventLoop) (now : ℤ × ℤ) (te : TimeEvent) : TimeEvent :=
  if now.1 < s.timers.lastTime then { te with when_sec := 0 } else te

theorem rewound_cases (s : EventLoop) (now : ℤ × ℤ) (te : TimeEvent) :
    s.rewound now te = te ∨ s.rewound now te = { te with when_sec := 0 } := by
  unfold rewound
  split_ifs
  · exact Or.inr rfl
  · exact Or.inl rfl

/-- What is done before the pass. -/
theorem rewind_spec (h : s.Good l) (now : ℤ × ℤ) :
    ∃ t, (if now.1 < s.timers.lastTime then
        s.timers.resetAll s.timers.allocated s.timers.timeEventHead else some s.timers) = some t ∧
      t.allocated = s.timers.allocated ∧ t.timeEventHead = s.timers.timeEventHead ∧
      t.timeEventNextId = s.timers.timeEventNextId ∧
      ∀ a, t.cells a =
        if a ∈ l then (s.timers.cells a).map (s.rewound now) else s.timers.cells a := by
  unfold rewound
  split_ifs with hback
  · obtain ⟨cells, hreset, hcells⟩ := Timers.resetAll_spec h.chained.linked h.chained.length_le
    exact ⟨_, hreset, rfl, rfl, rfl, hcells⟩
  · exact ⟨_, rfl, rfl, rfl, rfl, fun a ↦ by rw [Option.map_id', ite_self]⟩

/-- Only times differ, and the pass goes by these. -/
theorem Passed.rewound {s₁ : EventLoop} {f : TimeEvent → TimeEvent} {new : List Call}
    (h : Passed P id s₁ s' l l' l new) (hmoves : Moves P s s₁ l l) (hcalls : s₁.calls = s.calls)
    (hcells : ∀ a, s₁.timers.cells a =
      if a ∈ l then (s.timers.cells a).map f else s.timers.cells a)
    (hf : ∀ te, f te = te ∨ f te = { te with when_sec := 0 }) : Passed P f s s' l l' l new where
  moves := hmoves.trans h.moves
  calls := hcalls ▸ h.calls
  order := by
    have hids : s₁.liveIds l = s.liveIds l := by
      refine List.filterMap_congr fun a ha ↦ ?_
      unfold liveId
      rw [hcells, if_pos ha]
      cases s.timers.cells a with
      | none => rfl
      | some te =>
          rw [Option.map_some, Option.bind_some, Option.bind_some]
          rcases hf te with hte | hte <;> rw [hte]
    exact hids ▸ h.order
  due id proc clientData now hc := by
    obtain ⟨a, ha, te, hte, hid, hlive, hproc, hdata, hdue, hshown⟩ :=
      h.due id proc clientData now hc
    have hshown' := hshown.mono hmoves.readings le_rfl
    rw [hcells, if_pos ha] at hte
    obtain ⟨te₀, hte₀, rfl⟩ := Option.map_eq_some_iff.mp hte
    rcases hf te₀ with hsame | hsame
    · rw [hsame] at hid hproc hdata
      exact ⟨a, ha, te₀, hte₀, hid, hlive, hproc, hdata, hdue, hshown'⟩
    · rw [hsame] at hid hproc hdata
      exact ⟨a, ha, te₀, hte₀, hid, hlive, hproc, hdata, hdue, hshown'⟩
  called a ha te hte hlive hspares hdue := by
    have hte₁ : s₁.timers.cells a = some (f te) := by rw [hcells, if_pos ha, hte, Option.map_some]
    have hall : (f te).id = te.id ∧ (f te).timeProc = te.timeProc ∧
        (f te).clientData = te.clientData := by
      rcases hf te with hsame | hsame <;> rw [hsame] <;> exact ⟨rfl, rfl, rfl⟩
    obtain ⟨hid, hproc, hdata⟩ := hall
    rw [← hid] at hlive hspares
    obtain ⟨now, hnow⟩ := h.called a ha (f te) hte₁ hlive (hcalls ▸ hspares)
      fun k hk hk' ↦ hdue k (hmoves.readings.trans hk) hk'
    exact ⟨now, by rwa [hid, hproc, hdata] at hnow⟩
  removed a ha te hte hid := by
    have hte₁ : s₁.timers.cells a = some (f te) := by rw [hcells, if_pos ha, hte, Option.map_some]
    have hall : (f te).id = te.id ∧ finalizing a (f te) = finalizing a te := by
      rcases hf te with hsame | hsame <;> rw [hsame] <;> exact ⟨rfl, rfl⟩
    obtain ⟨hid', hfinal⟩ := hall
    rw [← hfinal]
    exact h.removed a ha (f te) hte₁ (hid'.trans hid)
  nomore n id proc clientData now hn := h.nomore n id proc clientData now (hcalls ▸ hn)
  complete htame hcomplete := by
    refine h.complete htame fun a ha ↦ hcomplete a fun hnone ↦ ha ?_
    rw [hcells, hnone, Option.map_none, ite_self]

/-- A pass, whatever the callbacks do: it ends, and calls what is due. -/
theorem processTimeEvents_passed (h : s.Good l) (hP : P.Proper) :
    ∃ n s' l' new, s.processTimeEvents P = some (n, s') ∧
      n = (new.filterMap Call.timeId).length ∧
      Passed P (s.rewound (P.clock s.readings)) s s' l l' l new := by
  obtain ⟨t, hreset, hallocated, hhead, hnextId, hcells⟩ := rewind_spec h (P.clock s.readings)
  have hback : ∀ a te, t.cells a = some te → ∃ te₀, s.timers.cells a = some te₀ ∧
      te₀.id = te.id ∧ te₀.next = te.next ∧ te₀.when_ms = te.when_ms := by
    intro a te hte
    rw [hcells] at hte
    split_ifs at hte
    · obtain ⟨te₀, hte₀, rfl⟩ := Option.map_eq_some_iff.mp hte
      refine ⟨te₀, hte₀, ?_⟩
      rcases rewound_cases s (P.clock s.readings) te₀ with hsame | hsame <;> rw [hsame] <;>
        exact ⟨rfl, rfl, rfl⟩
    · exact ⟨te, hte, rfl, rfl, rfl⟩
  have hfreed : ∀ a, s.timers.cells a = none → t.cells a = none := by
    intro a ha
    rw [hcells, ha, Option.map_none, ite_self]
  have hnext : ∀ a, t.next a = s.timers.next a := by
    intro a
    cases hcell : s.timers.cells a with
    | none => rw [Timers.next, Timers.next, hcell, hfreed a hcell]
    | some te₀ =>
        obtain ⟨te, hte⟩ : ∃ te, t.cells a = some te := by
          rw [hcells, hcell, Option.map_some]
          split_ifs
          · exact ⟨_, rfl⟩
          · exact ⟨_, rfl⟩
        obtain ⟨te₁, hte₁, -, heq, -⟩ := hback a te hte
        rw [Timers.next_eq hte, Timers.next_eq hte₁, heq]
  have hchained : t.Chained l := by
    refine h.chained.congr hhead hnextId hallocated hnext fun a te hte ↦ ?_
    obtain ⟨te₀, hte₀, hid, -⟩ := hback a te hte
    exact ⟨te₀, hte₀, hid⟩
  generalize hs₁ : ({ s with
    readings := s.readings + 1
    timers := { t with lastTime := (P.clock s.readings).1 } } : EventLoop) = s₁
  have hcells₁ : s₁.timers.cells = t.cells := hs₁ ▸ rfl
  have hnextId₁ : s₁.timers.timeEventNextId = s.timers.timeEventNextId := by
    rw [← hs₁]
    exact hnextId
  have hmoves : Moves P s s₁ l l := by
    rw [← hs₁]
    refine Quiet.moves ⟨rfl, rfl, Nat.le_succ _, List.prefix_rfl, rfl,
      fun _ hearly a te hte ↦ ?_, hnextId, hallocated, hfreed, ?_⟩ ⟨h.tracked, h.watched, ?_⟩
    on_goal 3 => exact hchained.congr rfl rfl rfl (fun _ ↦ rfl) fun _ te hte ↦ ⟨te, hte, rfl⟩
    · obtain ⟨te₀, hte₀, -, -, hms⟩ := hback a te hte
      exact hms ▸ hearly a te₀ hte₀
    · rintro id - ⟨a, ha, te, hte, hid⟩
      obtain ⟨te₀, hte₀, heq, -⟩ := hback a te hte
      exact ⟨a, ha, te₀, hte₀, heq.trans hid⟩
  have hmax : ∀ a ∈ l, ∀ te, s₁.timers.cells a = some te →
      te.id ≤ s₁.timers.timeEventNextId - 1 := by
    intro a ha te hte
    by_cases hid : te.id = -1
    · have hnonneg := hmoves.good.chained.nonneg
      omega
    · have hrange := hmoves.good.chained.ids a ha te hte hid
      omega
  have hlow : -1 ≤ s₁.timers.timeEventNextId - 1 := by
    have hnonneg := hmoves.good.chained.nonneg
    omega
  obtain ⟨n, s', l', new, hrun, hn, hpassed⟩ := timeLoop_passed hP hlow
    hmoves.good (.start []) (fun _ _ ↦ rfl) hmax hmoves.good.chained.length_le 0
  refine ⟨n, s', l', new, ?_, by rw [hn, zero_add], ?_⟩
  · have hhead₁ : s₁.timers.timeEventHead = l.head? := hmoves.good.chained.linked.head?_eq
    rw [← hhead₁] at hrun
    unfold processTimeEvents aeGetTime
    dsimp only
    rw [hreset, Option.bind_some]
    rw [← hs₁] at hrun
    exact hrun
  · exact hpassed.rewound hmoves (hs₁ ▸ rfl) (fun a ↦ hcells₁ ▸ hcells a) (rewound_cases s _)

end EventLoop

end Ae

end MuxHiredis
