import MuxHiredis.Ae.Adapter
import MuxHiredis.Async.Interest

/-!
# What a context sees of the loop

While registrations succeed, the loop and the kernel watch the socket of a context
for what its record says, and every context works with the loop as with `AeEvents`.
-/

namespace MuxHiredis

namespace Ae

namespace Files

variable {s : Files} {fd : ℕ}

/-- The operation is about another descriptor. -/
def Elsewhere (fd : ℕ) : FileOp → Prop
  | .create j _ _ _ _ | .delete j _ | .close j => fd ≠ j
  | .resize _ | .opened _ => True

theorem resize_aeGetFileEvents (ht : s.Tracked) (setsize fd : ℕ) :
    (s.aeResizeSetSize setsize).2.aeGetFileEvents fd = s.aeGetFileEvents fd := by
  unfold aeResizeSetSize
  split_ifs with hsame hsmall
  · rfl
  · rfl
  · have hrange := ht.range.2
    have hnone : ∀ j : ℕ, s.maxfd < j → s.aeGetFileEvents j = ⊥ := by
      intro j hj
      rw [aeGetFileEvents]
      split_ifs with hout
      · rfl
      · by_contra hmask
        have hle := ht.largest j (not_le.mp hout) hmask
        omega
    change (if setsize ≤ fd then ⊥ else
      (if s.maxfd < fd ∧ fd < setsize then { s.events fd with mask := ⊥ }
        else s.events fd).mask) = s.aeGetFileEvents fd
    by_cases hbig : s.maxfd < fd
    · rw [hnone fd hbig]
      split_ifs with hout hnew
      · rfl
      · rfl
      · exact absurd ⟨hbig, not_le.mp hout⟩ hnew
    · rw [if_neg (by omega), if_neg (fun h ↦ hbig h.1), aeGetFileEvents, if_neg (by omega)]
      rfl

theorem create_isOpen (hw : s.Watched) (j : ℕ) (mask : Mask) (proc clientData : ℕ)
    (refused : Bool) :
    (s.aeCreateFileEvent j mask proc clientData refused).2.kernel.isOpen = s.kernel.isOpen := by
  have hr := aeCreateFileEvent_cases hw j mask proc clientData refused
  generalize s.aeCreateFileEvent j mask proc clientData refused = r at hr ⊢
  cases hr with
  | failed _ => rfl
  | created _ _ _ _ _ => rfl

theorem delete_isOpen (hw : s.Watched) (j : ℕ) (mask : Mask) :
    (s.aeDeleteFileEvent j mask).kernel.isOpen = s.kernel.isOpen := by
  have hr := aeDeleteFileEvent_cases hw j mask
  generalize s.aeDeleteFileEvent j mask = s' at hr ⊢
  cases hr with
  | nothing _ => rfl
  | deleted _ _ _ _ _ hopen _ => exact hopen

/-- What an operation about another descriptor leaves as it is. -/
theorem elsewhere_perform (ht : s.Tracked) (hw : s.Watched) {a : FileOp}
    (ha : Elsewhere fd a) :
    (s.perform a).aeGetFileEvents fd = s.aeGetFileEvents fd ∧
      (s.kernel.isOpen fd = true → (s.perform a).kernel.isOpen fd = true) ∧
      (¬s.Stale fd → ¬(s.perform a).Stale fd) := by
  refine ⟨?_, fun hopen ↦ ?_, fun hlive hstale ↦ ?_⟩
  · by_cases hresize : ∃ setsize, a = .resize setsize
    · obtain ⟨setsize, rfl⟩ := hresize
      exact resize_aeGetFileEvents ht setsize fd
    · have htouch : ¬Touches fd a := by
        cases a with
        | create j mask proc clientData refused => exact Ne.symm ha
        | delete j mask => exact Ne.symm ha
        | resize setsize => exact absurd ⟨setsize, rfl⟩ hresize
        | opened j => exact id
        | close j => exact id
      rw [aeGetFileEvents, aeGetFileEvents, (size_kept s (not_exists.mp hresize)).1, Files.mask,
        Files.mask, events_untouched s htouch]
  · cases a with
    | create j mask proc clientData refused =>
        rw [perform, create_isOpen hw]
        exact hopen
    | delete j mask =>
        rw [perform, delete_isOpen hw]
        exact hopen
    | resize setsize =>
        rw [perform]
        unfold aeResizeSetSize
        split_ifs <;> exact hopen
    | opened j =>
        change Function.update s.kernel.isOpen j true fd = true
        by_cases hj : fd = j
        · rw [hj, Function.update_self]
        · rwa [Function.update_of_ne hj]
    | close j =>
        change Function.update s.kernel.isOpen j false fd = true
        rwa [Function.update_of_ne ha]
  · rcases ((stale_step ht hw a fd).mp hstale).2.2 with hold | rfl
    · exact hlive hold
    · exact ha rfl

end Files

/-! ## One record -/

/-- The loop watches the open socket for what the record says. -/
structure Matched (f : Files) (r : RedisAeEvents) : Prop where
  isOpen : f.kernel.isOpen r.fd = true
  live : ¬f.Stale r.fd
  bits : ∀ side : Side, side.bit (f.aeGetFileEvents r.fd) = side.flag r

namespace Matched

variable {f : Files} {r : RedisAeEvents}

theorem elsewhere (h : Matched f r) (ht : f.Tracked) (hw : f.Watched) {a : FileOp}
    (ha : Files.Elsewhere r.fd a) : Matched (f.perform a) r := by
  obtain ⟨hget, hopen, hlive⟩ := Files.elsewhere_perform ht hw ha
  refine ⟨hopen h.isOpen, hlive h.live, fun side ↦ ?_⟩
  rw [hget]
  exact h.bits side

theorem create (h : Matched f r) (hw : f.Watched) (side : Side) (hfd : r.fd < f.setsize)
    (e : ℕ) :
    Matched (f.aeCreateFileEvent r.fd side.mask side.proc e false).2 (side.set r true) := by
  have hr := Files.aeCreateFileEvent_cases hw r.fd side.mask side.proc e false
  have hstale := Files.stale_create (j := r.fd) hr
  generalize f.aeCreateFileEvent r.fd side.mask side.proc e false = res at hr hstale ⊢
  cases hr with
  | failed hfail =>
      rcases hfail with hout | hclosed | hold | ⟨-, hrefused⟩
      · exact absurd hfd hout
      · exact nomatch h.isOpen.symm.trans hclosed
      · exact absurd hold h.live
      · cases hrefused
  | @created fe _ _ _ _ hfe =>
      have hsame := (side.set_context r true).2
      refine ⟨?_, ?_, fun side' ↦ ?_⟩
      · rw [hsame]
        exact h.isOpen
      · rw [hsame]
        exact fun hnew ↦ h.live (hstale.mp hnew).2.2
      · have hbit := h.bits side'
        rw [Files.aeGetFileEvents, if_neg (not_le.mpr hfd)] at hbit
        rw [hsame, Files.aeGetFileEvents, if_neg (not_le.mpr hfd), Side.flag_set]
        change side'.bit (Function.update f.events r.fd fe r.fd).mask = _
        rw [Function.update_self, hfe, Side.bit_sup, hbit, Side.bit_mask]
        by_cases hside : side' = side
        · rw [if_pos hside, decide_eq_true hside, Bool.or_true]
        · rw [if_neg hside, decide_eq_false hside, Bool.or_false]

theorem delete (h : Matched f r) (hw : f.Watched) (side : Side) :
    Matched (f.aeDeleteFileEvent r.fd side.mask) (side.set r false) := by
  have hstale := Files.stale_delete (j := r.fd) (Files.aeDeleteFileEvent_cases hw r.fd side.mask)
  obtain ⟨hsize, hin, -⟩ := Files.delete_events f r.fd side.mask
  have hsame := (side.set_context r false).2
  refine ⟨?_, ?_, fun side' ↦ ?_⟩
  · rw [hsame, Files.delete_isOpen hw]
    exact h.isOpen
  · rw [hsame]
    exact fun hnew ↦ h.live (hstale.mp hnew).2.2
  · have hbit := h.bits side'
    rw [hsame, Files.aeGetFileEvents, hsize, Side.flag_set, ← hbit, Files.aeGetFileEvents]
    by_cases hfd : f.setsize ≤ r.fd
    · rw [if_pos hfd, if_pos hfd, Side.bit_bot, ite_self]
    · rw [if_neg hfd, if_neg hfd, Files.mask, hin (not_le.mp hfd), Function.update_self,
        Side.bit_sdiff, Side.bit_mask]
      by_cases hside : side' = side
      · rw [if_pos hside, decide_eq_true hside, Bool.not_true, Bool.and_false]
      · rw [if_neg hside, decide_eq_false hside, Bool.not_false, Bool.and_true]

/-- What the kernel watches the socket for. -/
theorem interest (h : Matched f r) (hw : f.Watched) :
    f.kernel.interest r.fd =
      if r.reading || r.writing then some (r.reading, r.writing) else none := by
  have hget : f.aeGetFileEvents r.fd = (r.reading, r.writing) :=
    Prod.ext (h.bits .read) (h.bits .write)
  cases hinterest : f.kernel.interest r.fd with
  | none =>
      have hnone : f.aeGetFileEvents r.fd = ⊥ := by
        rw [Files.aeGetFileEvents]
        split_ifs with hout
        · rfl
        · by_contra hmask
          exact h.live ⟨not_le.mp hout, hmask, hinterest⟩
      rw [hget] at hnone
      rw [show r.reading = false from congrArg Prod.fst hnone,
        show r.writing = false from congrArg Prod.snd hnone]
      rfl
  | some m =>
      obtain ⟨-, hfd, hmask, hne⟩ := hw r.fd m hinterest
      rw [Files.aeGetFileEvents, if_neg (not_le.mpr hfd), ← hmask] at hget
      subst hget
      rw [if_pos]
      by_contra hflags
      rw [Bool.not_eq_true, Bool.or_eq_false_iff] at hflags
      exact hne (Prod.ext hflags.1 hflags.2)

end Matched

/-! ## All records -/

namespace Adapters

variable {s s' : Adapters}

/-- A registration is neither out of range nor refused by the kernel. -/
def Succeeds (s : Adapters) : AdapterOp → Prop
  | .addRead c refused | .addWrite c refused =>
      refused = false ∧ ∀ e r, s.data c = some e → s.records e = some r → r.fd < s.files.setsize
  | _ => True

/-- The record of a context. -/
def recordOf (s : Adapters) (c : ℕ) : Option RedisAeEvents := (s.data c).bind s.records

/-- The record and what the loop watches its socket for. -/
def seen (s : Adapters) (r : RedisAeEvents) : AeEvents :=
  ⟨r.reading, r.writing, (s.files.aeGetFileEvents r.fd).1, (s.files.aeGetFileEvents r.fd).2⟩

def view (s : Adapters) (c : ℕ) : Option AeEvents := (s.recordOf c).map s.seen

/-- What an operation is for the context `c`. -/
def onView (c : ℕ) (v : Option AeEvents) : AdapterOp → Option AeEvents
  | .attach c' _ _ => if c = c' then some (v.getD .attach) else v
  | .addRead c' _ => if c = c' then v.map AeEvents.redisAeAddRead else v
  | .delRead c' => if c = c' then v.map AeEvents.redisAeDelRead else v
  | .addWrite c' _ => if c = c' then v.map AeEvents.redisAeAddWrite else v
  | .delWrite c' => if c = c' then v.map AeEvents.redisAeDelWrite else v
  | .cleanup c' => if c = c' then none else v
  | .other _ => v

/-- Every record is matched. -/
def Watching (s : Adapters) : Prop := ∀ e r, s.records e = some r → Matched s.files r

/-- What is seen of a matched record. -/
def settled (r : RedisAeEvents) : AeEvents := ⟨r.reading, r.writing, r.reading, r.writing⟩

theorem Watching.seen (h : s.Watching) {e : ℕ} {r : RedisAeEvents} (hr : s.records e = some r) :
    s.seen r = settled r := by
  have hread := (h e r hr).bits .read
  have hwrite := (h e r hr).bits .write
  rw [Adapters.seen, settled]
  congr 1

theorem Watching.view (h : s.Watching) (c : ℕ) : s.view c = (s.recordOf c).map settled := by
  rw [Adapters.view]
  cases hr : s.recordOf c with
  | none => rfl
  | some r =>
      obtain ⟨e, -, he⟩ := Option.bind_eq_some_iff.mp hr
      rw [Option.map_some, Option.map_some, h.seen he]

theorem set_self {side : Side} {r : RedisAeEvents} {b : Bool} (h : side.flag r = b) :
    side.set r b = r := by
  cases side with
  | read =>
      subst h
      rfl
  | write =>
      subst h
      rfl

theorem addEvent_record {side : Side} {e : ℕ} {refused : Bool} {r : RedisAeEvents}
    (hr : s.records e = some r) (hrun : addEvent side s e refused = some s') :
    s'.data = s.data ∧ s'.records = Function.update s.records e (some (side.set r true)) := by
  rw [addEvent, hr, Option.map_some] at hrun
  obtain rfl := Option.some.inj hrun
  split_ifs with hflag
  · rw [set_self hflag, ← hr, Function.update_eq_self]
    exact ⟨rfl, rfl⟩
  · exact ⟨rfl, rfl⟩

theorem delEvent_record {side : Side} {e : ℕ} {r : RedisAeEvents}
    (hr : s.records e = some r) (hrun : delEvent side s e = some s') :
    s'.data = s.data ∧ s'.records = Function.update s.records e (some (side.set r false)) := by
  rw [delEvent, hr, Option.map_some] at hrun
  obtain rfl := Option.some.inj hrun
  split_ifs with hflag
  · exact ⟨rfl, rfl⟩
  · rw [set_self (by simpa using hflag), ← hr, Function.update_eq_self]
    exact ⟨rfl, rfl⟩

/-- A record and the events of its socket are changed. -/
theorem Watching.update (h : s.Watching) (hb : s.Bound) {e : ℕ} {r r' : RedisAeEvents}
    (hr : s.records e = some r) {a : FileOp} (ha : ∀ fd ≠ r.fd, Files.Elsewhere fd a)
    (hrec : Matched (s.files.perform a) r') :
    ({ s with
      records := Function.update s.records e (some r')
      files := s.files.perform a } : Adapters).Watching := by
  intro e' r₀ hr₀
  rcases update_cases hr₀ with ⟨-, rfl⟩ | ⟨hne, hold⟩
  · exact hrec
  · have hfd : r₀.fd ≠ r.fd := fun heq ↦ hne (hb.sockets e' e r₀ r hold hr heq)
    exact (h e' r₀ hold).elsewhere hb.tracked hb.watched (ha r₀.fd hfd)

theorem Watching.addEvent (h : s.Watching) (hb : s.Bound) (side : Side) {e : ℕ}
    {r : RedisAeEvents} (hr : s.records e = some r) (hfd : r.fd < s.files.setsize)
    (hrun : Adapters.addEvent side s e false = some s') : s'.Watching := by
  rw [Adapters.addEvent, hr, Option.map_some] at hrun
  obtain rfl := Option.some.inj hrun
  split_ifs with hflag
  · exact h
  · have ha : ∀ fd ≠ r.fd,
        Files.Elsewhere fd (.create r.fd side.mask side.proc e false) := fun _ hne ↦ hne
    exact h.update hb hr ha ((h e r hr).create hb.watched side hfd e)

theorem Watching.delEvent (h : s.Watching) (hb : s.Bound) (side : Side) {e : ℕ}
    {r : RedisAeEvents} (hr : s.records e = some r)
    (hrun : Adapters.delEvent side s e = some s') : s'.Watching := by
  rw [Adapters.delEvent, hr, Option.map_some] at hrun
  obtain rfl := Option.some.inj hrun
  split_ifs with hflag
  · have ha : ∀ fd ≠ r.fd, Files.Elsewhere fd (.delete r.fd side.mask) := fun _ hne ↦ hne
    exact h.update hb hr ha ((h e r hr).delete hb.watched side)
  · exact h

/-! ## Every operation -/

/-- The registrations of a run succeed. -/
def Allowed (s : Adapters) (op : AdapterOp) : Prop := s.Admits op ∧ s.Succeeds op

/-- A function of `ev` finds its record. -/
theorem Bound.callWith (h : s.Bound) {c : ℕ} {f : ℕ → Option Adapters}
    (hrun : s.callWith c f = some s') :
    s.data c = none ∧ s' = s ∨
      ∃ e r, s.data c = some e ∧ s.records e = some r ∧ r.context = c ∧ f e = some s' := by
  cases hc : s.data c with
  | none =>
      rw [Adapters.callWith, hc] at hrun
      exact Or.inl ⟨rfl, (Option.some.inj hrun).symm⟩
  | some e =>
      rw [Adapters.callWith, hc] at hrun
      obtain ⟨r, hr, hcontext⟩ := h.attached c e hc
      exact Or.inr ⟨e, r, rfl, hr, hcontext, hrun⟩

theorem view_none {c : ℕ} (hc : s.data c = none) : s.view c = none := by
  rw [view, recordOf, hc]
  rfl

/-- Two contexts have two records. -/
theorem Bound.record_ne (h : s.Bound) {c e e' : ℕ} {r : RedisAeEvents}
    (hr : s.records e = some r) (hc : c ≠ r.context) (hdata : s.data c = some e') : e' ≠ e := by
  obtain ⟨r', hr', hcontext⟩ := h.attached c e' hdata
  rintro rfl
  rw [Option.some.inj (hr.symm.trans hr')] at hc
  exact hc hcontext.symm

theorem Bound.recordOf_update (h : s.Bound) {e : ℕ} {r r' : RedisAeEvents}
    (hr : s.records e = some r)
    (hs : s'.data = s.data ∧ s'.records = Function.update s.records e (some r')) (c : ℕ) :
    s'.recordOf c = if c = r.context then some r' else s.recordOf c := by
  rw [recordOf, hs.1, hs.2]
  by_cases hc : c = r.context
  · rw [if_pos hc, hc, h.context e r hr, Option.bind_some, Function.update_self]
  · rw [if_neg hc, recordOf]
    cases hd : s.data c with
    | none => rfl
    | some e' =>
        have hne : e' ≠ e := h.record_ne hr hc hd
        rw [Option.bind_some, Option.bind_some, Function.update_of_ne hne]

/-- A changed record is seen as its flags are. -/
theorem Bound.view_update (h : s.Bound) (hw : s.Watching) (hw' : s'.Watching) {e : ℕ}
    {r r' : RedisAeEvents} (hr : s.records e = some r)
    (hs : s'.data = s.data ∧ s'.records = Function.update s.records e (some r'))
    {f : AeEvents → AeEvents} (hf : settled r' = f (settled r)) (c : ℕ) :
    s'.view c = if c = r.context then (s.view c).map f else s.view c := by
  rw [hw'.view, hw.view, h.recordOf_update hr hs]
  by_cases hc : c = r.context
  · have hrecord : s.recordOf c = some r := by
      rw [recordOf, hc, h.context e r hr, Option.bind_some, hr]
    rw [if_pos hc, if_pos hc, hrecord, Option.map_some, Option.map_some, Option.map_some, hf]
  · rw [if_neg hc, if_neg hc]

theorem view_same {c : ℕ} (hc : s.data c = none) (f : AeEvents → AeEvents) (c' : ℕ) :
    s.view c' = if c' = c then (s.view c').map f else s.view c' := by
  by_cases hc' : c' = c
  · rw [if_pos hc', hc', view_none hc]
    rfl
  · rw [if_neg hc']

theorem Watching.add (hw : s.Watching) (h : s.Bound) (side : Side) {c : ℕ} {refused : Bool}
    (hok : refused = false ∧
      ∀ e r, s.data c = some e → s.records e = some r → r.fd < s.files.setsize)
    (hrun : s.callWith c (fun e ↦ Adapters.addEvent side s e refused) = some s')
    {f : AeEvents → AeEvents} (hf : ∀ r, settled (side.set r true) = f (settled r)) :
    s'.Watching ∧ ∀ c', s'.view c' = if c' = c then (s.view c').map f else s.view c' := by
  obtain ⟨rfl, hrange⟩ := hok
  rcases h.callWith hrun with ⟨hc, rfl⟩ | ⟨e, r, hc, hr, rfl, hadd⟩
  · exact ⟨hw, view_same hc f⟩
  · have hw' := hw.addEvent h side hr (hrange e r hc hr) hadd
    exact ⟨hw', h.view_update hw hw' hr (addEvent_record hr hadd) (hf r)⟩

theorem Watching.del (hw : s.Watching) (h : s.Bound) (side : Side) {c : ℕ}
    (hrun : s.callWith c (Adapters.delEvent side s) = some s')
    {f : AeEvents → AeEvents} (hf : ∀ r, settled (side.set r false) = f (settled r)) :
    s'.Watching ∧ ∀ c', s'.view c' = if c' = c then (s.view c').map f else s.view c' := by
  rcases h.callWith hrun with ⟨hc, rfl⟩ | ⟨e, r, hc, hr, rfl, hdel⟩
  · exact ⟨hw, view_same hc f⟩
  · have hw' := hw.delEvent h side hr hdel
    exact ⟨hw', h.view_update hw hw' hr (delEvent_record hr hdel) (hf r)⟩

/-- The context is gone, and the others keep their records. -/
theorem Watching.cleanup (hw : s.Watching) (h : s.Bound) {c : ℕ}
    (hrun : s.callWith c s.redisAeCleanup = some s') :
    ({ s' with data := Function.update s'.data c none } : Adapters).Watching ∧
      ∀ c', ({ s' with data := Function.update s'.data c none } : Adapters).view c' =
        if c' = c then none else s.view c' := by
  rcases h.callWith hrun with ⟨hc, rfl⟩ | ⟨e, r, hc, hr, rfl, hclean⟩
  · refine ⟨hw, fun c' ↦ ?_⟩
    rw [← hc, Function.update_eq_self]
    by_cases hc' : c' = c
    · rw [if_pos hc', hc', view_none hc]
    · rw [if_neg hc']
  · obtain ⟨s₁, hread, hclean⟩ := Option.bind_eq_some_iff.mp hclean
    obtain ⟨s₂, hwrite, rfl⟩ := Option.map_eq_some_iff.mp hclean
    obtain ⟨_, hread', h₁, -⟩ := h.delEvent .read hr
    obtain rfl := Option.some.inj (hread'.symm.trans hread)
    have hs₁ := delEvent_record hr hread
    have hr₁ : _ = some (Side.read.set r false) :=
      (congrFun hs₁.2 e).trans (Function.update_self _ _ _)
    have hw₁ := hw.delEvent h .read hr hread
    have hs₂ := delEvent_record hr₁ hwrite
    have hw₂ := hw₁.delEvent h₁ .write hr₁ hwrite
    have hgone : ({ s₂ with
        data := Function.update s₂.data r.context none
        records := Function.update s₂.records e none } : Adapters).Watching := by
      intro e' r' hr'
      by_cases he : e' = e
      · subst he
        exact nomatch (Function.update_self _ _ _).symm.trans hr'
      · exact hw₂ e' r' ((Function.update_of_ne he _ _).symm.trans hr')
    refine ⟨hgone, fun c' ↦ ?_⟩
    rw [hgone.view, hw.view, recordOf, recordOf]
    dsimp only
    by_cases hc' : c' = r.context
    · rw [if_pos hc', hc', Function.update_self]
      rfl
    · rw [if_neg hc', Function.update_of_ne hc', hs₂.1, hs₁.1]
      cases hd : s.data c' with
      | none => rfl
      | some e' =>
          have hne : e' ≠ e := h.record_ne hr hc' hd
          rw [Option.bind_some, Option.bind_some, Function.update_of_ne hne, hs₂.2,
            Function.update_of_ne hne, hs₁.2, Function.update_of_ne hne]

theorem Watching.attach (hw : s.Watching) (h : s.Bound) {c fd e : ℕ}
    (he : s.records e = none) (hopen : s.files.kernel.isOpen fd = true)
    (hmask : fd < s.files.setsize → s.files.mask fd = ⊥) :
    (⟨s.files, Function.update s.data c (some e),
      Function.update s.records e (some ⟨c, fd, false, false⟩)⟩ : Adapters).Watching ∧
      ∀ c', (⟨s.files, Function.update s.data c (some e),
        Function.update s.records e (some ⟨c, fd, false, false⟩)⟩ : Adapters).view c' =
          if c' = c then some AeEvents.attach else s.view c' := by
  have hnew : Matched s.files ⟨c, fd, false, false⟩ := by
    refine ⟨hopen, fun hstale ↦ hstale.2.1 (hmask hstale.1), fun side ↦ ?_⟩
    have hnone : s.files.aeGetFileEvents fd = ⊥ := by
      rw [Files.aeGetFileEvents]
      split_ifs with hout
      · rfl
      · exact hmask (not_le.mp hout)
    rw [hnone, side.bit_bot]
    cases side <;> rfl
  have hw' : (⟨s.files, Function.update s.data c (some e),
      Function.update s.records e (some ⟨c, fd, false, false⟩)⟩ : Adapters).Watching := by
    intro e' r' hr'
    rcases update_cases hr' with ⟨-, rfl⟩ | ⟨-, hold⟩
    · exact hnew
    · exact hw e' r' hold
  refine ⟨hw', fun c' ↦ ?_⟩
  rw [hw'.view, hw.view, recordOf, recordOf]
  dsimp only
  by_cases hc' : c' = c
  · rw [if_pos hc', hc', Function.update_self, Option.bind_some, Function.update_self]
    rfl
  · rw [if_neg hc', Function.update_of_ne hc']
    cases hd : s.data c' with
    | none => rfl
    | some e' =>
        obtain ⟨r', hr', -⟩ := h.attached c' e' hd
        have hne : e' ≠ e := by
          rintro rfl
          rw [he] at hr'
          cases hr'
        rw [Option.bind_some, Option.bind_some, Function.update_of_ne hne]

theorem Watching.other (hw : s.Watching) (h : s.Bound) {a : FileOp} (ha : s.Admits (.other a)) :
    ({ s with files := s.files.perform a } : Adapters).Watching := by
  intro e r hr
  apply (hw e r hr).elsewhere h.tracked h.watched
  cases a with
  | create fd mask proc clientData refused => exact ha.2.1 e r hr
  | delete fd mask => exact ha e r hr
  | resize setsize => trivial
  | opened fd => trivial
  | close fd => exact ha e r hr

/-- Every context sees what `AeEvents` does. -/
theorem Watching.step (hw : s.Watching) (h : s.Bound) {op : AdapterOp} (hop : s.Allowed op)
    (hstep : s.step op = some s') : s'.Watching ∧ ∀ c, s'.view c = onView c (s.view c) op := by
  obtain ⟨hadmits, hok⟩ := hop
  cases op with
  | attach c fd e =>
      rw [Adapters.step, redisAeAttach] at hstep
      by_cases hc : s.data c = none
      · rw [if_neg (not_not_intro hc)] at hstep
        cases e with
        | none => exact absurd hc hadmits
        | some e =>
            obtain ⟨he, -, hopen, hmask⟩ := hadmits
            obtain rfl := Option.some.inj hstep
            obtain ⟨hw', hview⟩ := hw.attach h he hopen hmask
            refine ⟨hw', fun c' ↦ (hview c').trans ?_⟩
            by_cases hc' : c' = c
            · rw [if_pos hc', onView, if_pos hc', hc', view_none hc]
              rfl
            · rw [if_neg hc', onView, if_neg hc']
      · rw [if_pos hc] at hstep
        obtain rfl := Option.some.inj hstep
        refine ⟨hw, fun c' ↦ ?_⟩
        by_cases hc' : c' = c
        · obtain ⟨e', he'⟩ := Option.ne_none_iff_exists'.mp hc
          obtain ⟨r, hr, -⟩ := h.attached c e' he'
          rw [onView, if_pos hc', hc', Adapters.view, recordOf, he', Option.bind_some, hr]
          rfl
        · rw [onView, if_neg hc']
  | addRead c refused =>
      refine hw.add h .read hok hstep fun r ↦ ?_
      cases r with
      | mk context fd reading writing => cases reading <;> rfl
  | delRead c =>
      refine hw.del h .read hstep fun r ↦ ?_
      cases r with
      | mk context fd reading writing => cases reading <;> rfl
  | addWrite c refused =>
      refine hw.add h .write hok hstep fun r ↦ ?_
      cases r with
      | mk context fd reading writing => cases writing <;> rfl
  | delWrite c =>
      refine hw.del h .write hstep fun r ↦ ?_
      cases r with
      | mk context fd reading writing => cases writing <;> rfl
  | cleanup c =>
      obtain ⟨s₁, hrun, rfl⟩ := Option.map_eq_some_iff.mp hstep
      exact hw.cleanup h hrun
  | other a =>
      obtain rfl := Option.some.inj hstep
      have hw' := hw.other h hadmits
      refine ⟨hw', fun c ↦ ?_⟩
      rw [hw'.view, onView, hw.view]
      rfl

/-! ## Every run -/

theorem reach_watching (hs : adapters.Reach Allowed s) : s.Bound ∧ s.Watching := by
  apply hs.invariant
  · intro s h
    exact ⟨.start h, fun e r hr ↦ nomatch (h.2.2 e).symm.trans hr⟩
  · intro s op s' h hop hstep
    obtain ⟨s₁, hrun, h'⟩ := h.1.step hop.1
    obtain rfl := Option.some.inj (hstep.symm.trans hrun)
    exact ⟨h', (h.2.step h.1 hop hstep).1⟩

/-- In every run whose registrations succeed, each context sees what the operations of
`AeEvents` do, and the kernel watches its socket for what the record says. -/
theorem adapters_refine (hs : adapters.Reach Allowed s) {ops : List AdapterOp}
    (hmeets : adapters.Meets Allowed s ops) (hrun : adapters.run s ops = some s') :
    (∀ c, s'.view c = ops.foldl (onView c) (s.view c)) ∧
      ∀ e r, s'.records e = some r → s'.files.kernel.interest r.fd =
        if r.reading || r.writing then some (r.reading, r.writing) else none := by
  refine ⟨fun c ↦ ?_, fun e r hr ↦ ?_⟩
  · induction ops generalizing s with
    | nil =>
        obtain rfl := Option.some.inj hrun
        rfl
    | cons op rest ih =>
        obtain ⟨s₁, hstep, hrest⟩ := Option.bind_eq_some_iff.mp hrun
        obtain ⟨hop, hmeets⟩ := hmeets
        rw [hstep] at hmeets
        obtain ⟨h, hw⟩ := reach_watching hs
        have hview := (hw.step h hop hstep).2 c
        rw [ih (.step op hs hop hstep) hmeets hrest, hview, List.foldl_cons]
  · obtain ⟨h, hw⟩ := reach_watching (hs.run hmeets hrun)
    exact (hw e r hr).interest h.watched

/-- Context 3 reads, and its output is written. -/
theorem adapters_refine_written :
    ∃ s, adapters.run ⟨Files.emptyLoop, fun _ ↦ none, fun _ ↦ none⟩
        [.other (.opened 5), .attach 3 5 (some 9), .addRead 3 false, .addWrite 3 false,
          .delWrite 3] = some s ∧
      s.view 3 = some ⟨true, false, true, false⟩ ∧
      s.files.kernel.interest 5 = some (true, false) := by
  have hstart : adapters.Reach Allowed ⟨Files.emptyLoop, fun _ ↦ none, fun _ ↦ none⟩ :=
    .start ⟨Files.emptyLoop_created, fun _ ↦ rfl, fun _ ↦ rfl⟩
  have hmeets : adapters.Meets Allowed ⟨Files.emptyLoop, fun _ ↦ none, fun _ ↦ none⟩
      [.other (.opened 5), .attach 3 5 (some 9), .addRead 3 false, .addWrite 3 false,
        .delWrite 3] := by
    refine ⟨⟨trivial, trivial⟩, ⟨⟨rfl, nofun, rfl, fun _ ↦ rfl⟩, trivial⟩,
      ⟨trivial, rfl, ?_⟩, ⟨trivial, rfl, ?_⟩, ⟨trivial, trivial⟩, trivial⟩
    · rintro e r ⟨⟩ ⟨⟩
      decide
    · rintro e r ⟨⟩ ⟨⟩
      decide
  obtain ⟨hview, hinterest⟩ := adapters_refine hstart hmeets rfl
  exact ⟨_, rfl, hview 3, hinterest 9 ⟨3, 5, true, false⟩ rfl⟩

end Adapters

end Ae

end MuxHiredis
