import MuxHiredis.Ae.Files

/-!
# Contexts on the event loop

`adapters/ae.h`: any number of contexts on one loop, which has events of its own.  A
context calls its functions with the record in `ev.data`; after `cleanup` it is freed.
-/

namespace MuxHiredis

namespace Ae

/-- The procedures that the adapter registers. -/
def redisAeReadEvent : ℕ := 0

def redisAeWriteEvent : ℕ := 1

structure RedisAeEvents where
  context : ℕ
  fd : ℕ
  reading : Bool
  writing : Bool

inductive Side where
  | read
  | write
  deriving DecidableEq

namespace Side

def mask : Side → Mask
  | .read => aeReadable
  | .write => aeWritable

def proc : Side → ℕ
  | .read => redisAeReadEvent
  | .write => redisAeWriteEvent

def flag : Side → RedisAeEvents → Bool
  | .read, r => r.reading
  | .write, r => r.writing

def set : Side → RedisAeEvents → Bool → RedisAeEvents
  | .read, r, b => { r with reading := b }
  | .write, r, b => { r with writing := b }

/-- The bit of a mask. -/
def bit : Side → Mask → Bool
  | .read, m => m.1
  | .write, m => m.2

def fileProc : Side → FileEvent → ℕ
  | .read, fe => fe.rfileProc
  | .write, fe => fe.wfileProc

end Side

/-- The loop, `ev.data` of the contexts, and the records that are allocated. -/
structure Adapters where
  files : Files
  data : ℕ → Option ℕ
  records : ℕ → Option RedisAeEvents

namespace Adapters

def addEvent (side : Side) (s : Adapters) (e : ℕ) (refused : Bool) : Option Adapters :=
  (s.records e).map fun r ↦
    if side.flag r then s
    else
      { s with
        records := Function.update s.records e (some (side.set r true))
        files := (s.files.aeCreateFileEvent r.fd side.mask side.proc e refused).2 }

def delEvent (side : Side) (s : Adapters) (e : ℕ) : Option Adapters :=
  (s.records e).map fun r ↦
    if side.flag r then
      { s with
        records := Function.update s.records e (some (side.set r false))
        files := s.files.aeDeleteFileEvent r.fd side.mask }
    else s

def redisAeAddRead (s : Adapters) (e : ℕ) (refused : Bool) : Option Adapters :=
  addEvent .read s e refused

def redisAeDelRead (s : Adapters) (e : ℕ) : Option Adapters := delEvent .read s e

def redisAeAddWrite (s : Adapters) (e : ℕ) (refused : Bool) : Option Adapters :=
  addEvent .write s e refused

def redisAeDelWrite (s : Adapters) (e : ℕ) : Option Adapters := delEvent .write s e

def redisAeCleanup (s : Adapters) (e : ℕ) : Option Adapters :=
  (s.redisAeDelRead e).bind fun s ↦ (s.redisAeDelWrite e).map fun s ↦
    { s with records := Function.update s.records e none }

/-- `e` is the result of `malloc`, which is not checked: `none` stands for `NULL`. -/
def redisAeAttach (s : Adapters) (context fd : ℕ) (e : Option ℕ) : Option (Status × Adapters) :=
  if s.data context ≠ none then some (.err, s)
  else e.map fun e ↦
    (.ok, { s with
      data := Function.update s.data context (some e)
      records := Function.update s.records e (some ⟨context, fd, false, false⟩) })

end Adapters

/-- What happens to the loop: a context calls one of its functions, it is freed after
`cleanup`, or something else is done with descriptors. -/
inductive AdapterOp where
  | attach (context fd : ℕ) (e : Option ℕ)
  | addRead (context : ℕ) (refused : Bool)
  | delRead (context : ℕ)
  | addWrite (context : ℕ) (refused : Bool)
  | delWrite (context : ℕ)
  | cleanup (context : ℕ)
  | other (a : FileOp)

namespace Adapters

/-- A function of `ev` is called if there is one. -/
def callWith (s : Adapters) (context : ℕ) (f : ℕ → Option Adapters) : Option Adapters :=
  match s.data context with
  | none => some s
  | some e => f e

def step (s : Adapters) : AdapterOp → Option Adapters
  | .attach context fd e => (s.redisAeAttach context fd e).map Prod.snd
  | .addRead context refused => s.callWith context fun e ↦ s.redisAeAddRead e refused
  | .delRead context => s.callWith context s.redisAeDelRead
  | .addWrite context refused => s.callWith context fun e ↦ s.redisAeAddWrite e refused
  | .delWrite context => s.callWith context s.redisAeDelWrite
  | .cleanup context =>
      (s.callWith context s.redisAeCleanup).map fun s ↦
        { s with data := Function.update s.data context none }
  | .other a => some { s with files := s.files.perform a }

/-- No context has the descriptor. -/
def Free (s : Adapters) (fd : ℕ) : Prop := ∀ e r, s.records e = some r → r.fd ≠ fd

/-- `malloc` returns a new record, and a context has a socket of its own, with no events.
Only the owner of a descriptor closes it or changes its events. -/
def Admits (s : Adapters) : AdapterOp → Prop
  | .attach _ fd (some e) =>
      s.records e = none ∧ s.Free fd ∧ s.files.kernel.isOpen fd = true ∧
        (fd < s.files.setsize → s.files.mask fd = ⊥)
  | .attach context _ none => s.data context ≠ none
  | .other (.create fd mask proc _ _) =>
      mask ≠ ⊥ ∧ s.Free fd ∧ proc ≠ redisAeReadEvent ∧ proc ≠ redisAeWriteEvent
  | .other (.delete fd _) | .other (.close fd) => s.Free fd
  | _ => True

end Adapters

def adapters : Machine Adapters AdapterOp where
  start s := s.files.Created ∧ (∀ c, s.data c = none) ∧ ∀ e, s.records e = none
  step := Adapters.step

namespace Adapters

/-- The loop agrees with the records about descriptors, and a bit of a mask leads to the
record, which has its flag. -/
structure Bound (s : Adapters) : Prop where
  tracked : s.files.Tracked
  watched : s.files.Watched
  attached : ∀ c e, s.data c = some e → ∃ r, s.records e = some r ∧ r.context = c
  context : ∀ e r, s.records e = some r → s.data r.context = some e
  sockets : ∀ e e' r r', s.records e = some r → s.records e' = some r' → r.fd = r'.fd → e = e'
  bits : ∀ e r, s.records e = some r → r.fd < s.files.setsize → ∀ side : Side,
    side.bit (s.files.mask r.fd) = true → side.flag r = true ∧
      side.fileProc (s.files.events r.fd) = side.proc ∧ (s.files.events r.fd).clientData = e
  foreign : ∀ fd < s.files.setsize, s.Free fd → ∀ side : Side,
    side.bit (s.files.mask fd) = true → side.fileProc (s.files.events fd) ≠ side.proc

end Adapters

/-! ## What the loop does -/

namespace Side

theorem bit_bot (side : Side) : side.bit ⊥ = false := by cases side <;> rfl

theorem bit_sup (side : Side) (m m' : Mask) : side.bit (m ⊔ m') = (side.bit m || side.bit m') := by
  cases side <;> rfl

theorem bit_sdiff (side : Side) (m m' : Mask) :
    side.bit (m \ m') = (side.bit m && !side.bit m') := by
  cases side <;> rfl

theorem bit_mask (side side' : Side) : side.bit side'.mask = decide (side = side') := by
  cases side <;> cases side' <;> rfl

theorem flag_set (side side' : Side) (r : RedisAeEvents) (b : Bool) :
    side.flag (side'.set r b) = if side = side' then b else side.flag r := by
  cases side <;> cases side' <;> rfl

theorem set_context (side : Side) (r : RedisAeEvents) (b : Bool) :
    (side.set r b).context = r.context ∧ (side.set r b).fd = r.fd := by
  cases side <;> exact ⟨rfl, rfl⟩

/-- What a new event does to the procedure of a side. -/
theorem fileProc_create (side : Side) (fe : FileEvent) (m mask : Mask) (proc clientData : ℕ) :
    side.fileProc
        { mask := m
          rfileProc := if mask.1 then proc else fe.rfileProc
          wfileProc := if mask.2 then proc else fe.wfileProc
          clientData := clientData } = if side.bit mask then proc else side.fileProc fe := by
  cases side <;> rfl

end Side

namespace Files

variable {s s' : Files} {fd : ℕ} {mask : Mask}

/-- No bit is new, and those that are left have their procedures. -/
def Fewer (s s' : Files) : Prop :=
  ∀ fd < s'.setsize, ∀ side : Side, side.bit (s'.mask fd) = true →
    fd < s.setsize ∧ side.bit (s.mask fd) = true ∧
      side.fileProc (s'.events fd) = side.fileProc (s.events fd) ∧
      (s'.events fd).clientData = (s.events fd).clientData

theorem fewer_of_events (hsize : s'.setsize = s.setsize) (hevents : s'.events = s.events) :
    Fewer s s' := by
  intro fd hfd side hbit
  rw [mask, hevents] at hbit
  rw [hevents]
  exact ⟨hsize ▸ hfd, hbit, rfl, rfl⟩

/-- What creating an event does to the events. -/
theorem create_events (s : Files) (fd : ℕ) (mask : Mask) (proc clientData : ℕ)
    (refused : Bool) :
    (s.aeCreateFileEvent fd mask proc clientData refused).2.setsize = s.setsize ∧
      ((s.aeCreateFileEvent fd mask proc clientData refused).2.events = s.events ∨
        fd < s.setsize ∧ (s.aeCreateFileEvent fd mask proc clientData refused).2.events =
          Function.update s.events fd
            { mask := s.mask fd ⊔ mask
              rfileProc := if mask.1 then proc else (s.events fd).rfileProc
              wfileProc := if mask.2 then proc else (s.events fd).wfileProc
              clientData := clientData }) := by
  unfold aeCreateFileEvent
  by_cases hfd : s.setsize ≤ fd
  · rw [if_pos hfd]
    exact ⟨rfl, Or.inl rfl⟩
  · rw [if_neg hfd]
    split
    · exact ⟨rfl, Or.inl rfl⟩
    · exact ⟨rfl, Or.inr ⟨not_le.mp hfd, rfl⟩⟩

theorem delete_events (s : Files) (fd : ℕ) (mask : Mask) :
    (s.aeDeleteFileEvent fd mask).setsize = s.setsize ∧
      (fd < s.setsize → (s.aeDeleteFileEvent fd mask).events =
        Function.update s.events fd { s.events fd with mask := s.mask fd \ mask }) ∧
      (s.setsize ≤ fd → (s.aeDeleteFileEvent fd mask).events = s.events) := by
  unfold aeDeleteFileEvent
  by_cases hfd : s.setsize ≤ fd
  · rw [if_pos hfd]
    exact ⟨rfl, fun hlt ↦ absurd hlt (not_lt.mpr hfd), fun _ ↦ rfl⟩
  · rw [if_neg hfd]
    by_cases hmask : s.mask fd = ⊥
    · rw [if_pos hmask, hmask, bot_sdiff, ← hmask]
      refine ⟨rfl, fun _ ↦ ?_, fun h ↦ absurd h hfd⟩
      exact (Function.update_eq_self fd s.events).symm
    · rw [if_neg hmask]
      dsimp only
      split_ifs
      · exact ⟨rfl, fun _ ↦ rfl, fun h ↦ absurd h hfd⟩
      · exact ⟨rfl, fun _ ↦ rfl, fun h ↦ absurd h hfd⟩

theorem fewer_delete (s : Files) (fd : ℕ) (mask : Mask) :
    Fewer s (s.aeDeleteFileEvent fd mask) := by
  obtain ⟨hsize, hin, hout⟩ := delete_events s fd mask
  by_cases hlt : fd < s.setsize
  · intro j hj side hbit
    rw [hsize] at hj
    rw [Files.mask, hin hlt] at hbit
    rw [hin hlt]
    by_cases hjfd : j = fd
    · subst hjfd
      rw [Function.update_self] at hbit ⊢
      rw [Side.bit_sdiff, Bool.and_eq_true] at hbit
      refine ⟨hj, hbit.1, ?_, rfl⟩
      cases side <;> rfl
    · rw [Function.update_of_ne hjfd] at hbit ⊢
      exact ⟨hj, hbit, rfl, rfl⟩
  · exact fewer_of_events hsize (hout (not_lt.mp hlt))

theorem fewer_resize (ht : s.Tracked) (setsize : ℕ) : Fewer s (s.aeResizeSetSize setsize).2 := by
  unfold aeResizeSetSize
  split_ifs with hsame hsmall
  · exact fewer_of_events rfl rfl
  · exact fewer_of_events rfl rfl
  · intro j hj side hbit
    change j < setsize at hj
    change side.bit (if s.maxfd < j ∧ j < setsize then { s.events j with mask := ⊥ }
      else s.events j).mask = true at hbit
    have hsmall' : ¬(s.maxfd < j ∧ j < setsize) := by
      intro hbig
      rw [if_pos hbig] at hbit
      exact nomatch (side.bit_bot).symm.trans hbit
    rw [if_neg hsmall'] at hbit
    have hrange := ht.range.2
    have hevent : (if s.maxfd < j ∧ j < setsize then { s.events j with mask := ⊥ }
        else s.events j) = s.events j := if_neg hsmall'
    refine ⟨by omega, hbit, ?_, ?_⟩
    · exact congrArg side.fileProc hevent
    · exact congrArg FileEvent.clientData hevent

end Files

/-! ## What every operation keeps -/

namespace Adapters

variable {s s' : Adapters}

theorem Bound.start (h : adapters.start s) : s.Bound where
  tracked := h.1.tracked
  watched := h.1.watched
  attached := fun c e hc ↦ nomatch (h.2.1 c).symm.trans hc
  context := fun e r hr ↦ nomatch (h.2.2 e).symm.trans hr
  sockets := fun e _ r _ hr ↦ nomatch (h.2.2 e).symm.trans hr
  bits := fun e r hr ↦ nomatch (h.2.2 e).symm.trans hr
  foreign := by
    intro fd hfd _ side hbit
    rw [h.1.mask fd hfd] at hbit
    exact nomatch (side.bit_bot).symm.trans hbit

/-- Something is taken away from the events. -/
theorem Bound.fewer (h : s.Bound) {files : Files} (ht : files.Tracked) (hw : files.Watched)
    (hfewer : Files.Fewer s.files files) : ({ s with files := files } : Adapters).Bound where
  tracked := ht
  watched := hw
  attached := h.attached
  context := h.context
  sockets := h.sockets
  bits := by
    intro e r hr hfd side hbit
    obtain ⟨hlt, hold, hproc, hdata⟩ := hfewer r.fd hfd side hbit
    obtain ⟨hflag, hproc', hdata'⟩ := h.bits e r hr hlt side hold
    exact ⟨hflag, hproc.trans hproc', hdata.trans hdata'⟩
  foreign := by
    intro fd hfd hfree side hbit
    obtain ⟨hlt, hold, hproc, -⟩ := hfewer fd hfd side hbit
    exact fun heq ↦ h.foreign fd hlt hfree side hold (hproc.symm.trans heq)

/-- The owner of a descriptor creates an event. -/
theorem Bound.create (h : s.Bound) {fd : ℕ} {mask : Mask} {proc : ℕ} (hmask : mask ≠ ⊥)
    (hfree : s.Free fd) (hread : proc ≠ redisAeReadEvent) (hwrite : proc ≠ redisAeWriteEvent)
    (clientData : ℕ) (refused : Bool) :
    ({ s with files := (s.files.aeCreateFileEvent fd mask proc clientData refused).2 } :
      Adapters).Bound := by
  have hproper : Files.Proper (.create fd mask proc clientData refused) := hmask
  have ht := h.tracked.step h.watched hproper
  have hw := h.watched.step h.tracked hproper
  obtain ⟨hsize, hsame | ⟨hlt, hevents⟩⟩ :=
    Files.create_events s.files fd mask proc clientData refused
  · exact h.fewer ht hw (Files.fewer_of_events hsize hsame)
  · have hproc : ∀ side : Side, proc ≠ side.proc := by
      rintro (_ | _)
      · exact hread
      · exact hwrite
    refine ⟨ht, hw, h.attached, h.context, h.sockets, fun e r hr hfd side hbit ↦ ?_,
      fun j hj hjfree side hbit ↦ ?_⟩
    · have hne : r.fd ≠ fd := hfree e r hr
      dsimp only at hbit ⊢
      rw [Files.mask, hevents, Function.update_of_ne hne] at hbit
      rw [hevents, Function.update_of_ne hne]
      exact h.bits e r hr (hsize ▸ hfd) side hbit
    · dsimp only at hbit ⊢
      rw [Files.mask, hevents] at hbit
      rw [hevents]
      by_cases hjfd : j = fd
      · subst hjfd
        rw [Function.update_self] at hbit ⊢
        rw [Side.fileProc_create]
        split_ifs with hnew
        · exact hproc side
        · have hold : side.bit (s.files.mask j) = true := by
            rw [Side.bit_sup, Bool.or_eq_true] at hbit
            exact hbit.resolve_right hnew
          exact h.foreign j hlt hfree side hold
      · rw [Function.update_of_ne hjfd] at hbit ⊢
        exact h.foreign j (hsize ▸ hj) hjfree side hbit

theorem update_cases {β : Type*} {f : ℕ → Option β} {e e' : ℕ} {r r' : β}
    (h : Function.update f e (some r) e' = some r') :
    e' = e ∧ r' = r ∨ e' ≠ e ∧ f e' = some r' := by
  by_cases he : e' = e
  · subst he
    rw [Function.update_self] at h
    exact Or.inl ⟨rfl, (Option.some.inj h).symm⟩
  · rw [Function.update_of_ne he] at h
    exact Or.inr ⟨he, h⟩

/-- The descriptors of the records are the same. -/
theorem free_update {e : ℕ} {r r' : RedisAeEvents} (hr : s.records e = some r)
    (hfd : r'.fd = r.fd) (files : Files) (fd : ℕ) :
    ({ s with records := Function.update s.records e (some r'), files := files } :
      Adapters).Free fd ↔ s.Free fd := by
  constructor
  · intro h e' r₀ hr₀
    by_cases he : e' = e
    · subst he
      rw [Option.some.inj (hr₀.symm.trans hr), ← hfd]
      exact h e' r' (Function.update_self _ _ _)
    · exact h e' r₀ ((Function.update_of_ne he _ _).trans hr₀)
  · intro h e' r₀ hr₀
    rcases update_cases hr₀ with ⟨rfl, rfl⟩ | ⟨-, hold⟩
    · rw [hfd]
      exact h e' r hr
    · exact h e' r₀ hold

/-- A record changes its flags, and the events of its descriptor are changed. -/
theorem Bound.record (h : s.Bound) {e : ℕ} {r r' : RedisAeEvents} (hr : s.records e = some r)
    (hsame : r'.context = r.context ∧ r'.fd = r.fd) {files : Files} (ht : files.Tracked)
    (hw : files.Watched) (hsize : files.setsize = s.files.setsize)
    (hother : ∀ fd ≠ r.fd, files.events fd = s.files.events fd)
    (hbits : r.fd < s.files.setsize → ∀ side : Side, side.bit (files.mask r.fd) = true →
      side.flag r' = true ∧ side.fileProc (files.events r.fd) = side.proc ∧
        (files.events r.fd).clientData = e) :
    ({ s with records := Function.update s.records e (some r'), files := files } :
      Adapters).Bound := by
  refine ⟨ht, hw, fun c e' hc ↦ ?_, fun e' r₀ hr₀ ↦ ?_, fun e₁ e₂ r₁ r₂ h₁ h₂ hfd ↦ ?_,
    fun e' r₀ hr₀ hfd side hbit ↦ ?_, fun fd hfd hfree side hbit ↦ ?_⟩
  · obtain ⟨r₀, hr₀, hcontext⟩ := h.attached c e' hc
    by_cases he : e' = e
    · subst he
      obtain rfl := Option.some.inj (hr.symm.trans hr₀)
      exact ⟨r', Function.update_self _ _ _, hsame.1.trans hcontext⟩
    · exact ⟨r₀, (Function.update_of_ne he _ _).trans hr₀, hcontext⟩
  · rcases update_cases hr₀ with ⟨rfl, rfl⟩ | ⟨-, hold⟩
    · rw [hsame.1]
      exact h.context e' r hr
    · exact h.context e' r₀ hold
  · rcases update_cases h₁ with ⟨rfl, rfl⟩ | ⟨-, hold₁⟩
    · rcases update_cases h₂ with ⟨rfl, -⟩ | ⟨-, hold₂⟩
      · rfl
      · exact h.sockets e₁ e₂ r r₂ hr hold₂ (hsame.2.symm.trans hfd)
    · rcases update_cases h₂ with ⟨rfl, rfl⟩ | ⟨-, hold₂⟩
      · exact h.sockets e₁ e₂ r₁ r hold₁ hr (hfd.trans hsame.2)
      · exact h.sockets e₁ e₂ r₁ r₂ hold₁ hold₂ hfd
  · rcases update_cases hr₀ with ⟨rfl, rfl⟩ | ⟨he, hold⟩
    · rw [hsame.2] at hfd hbit ⊢
      exact hbits (hsize ▸ hfd) side hbit
    · have hne : r₀.fd ≠ r.fd := fun heq ↦ he (h.sockets e' e r₀ r hold hr heq)
      dsimp only at hbit ⊢
      rw [Files.mask, hother _ hne] at hbit
      rw [hother _ hne]
      exact h.bits e' r₀ hold (hsize ▸ hfd) side hbit
  · rw [free_update hr hsame.2] at hfree
    have hne : fd ≠ r.fd := fun heq ↦ hfree e r hr heq.symm
    dsimp only at hbit ⊢
    rw [Files.mask, hother fd hne] at hbit
    rw [hother fd hne]
    exact h.foreign fd (hsize ▸ hfd) hfree side hbit

theorem Bound.addEvent (h : s.Bound) (side : Side) {e : ℕ} {r : RedisAeEvents}
    (hr : s.records e = some r) (refused : Bool) :
    ∃ s', Adapters.addEvent side s e refused = some s' ∧ s'.Bound := by
  rw [Adapters.addEvent, hr, Option.map_some]
  refine ⟨_, rfl, ?_⟩
  split_ifs with hflag
  · exact h
  · have hmask : side.mask ≠ ⊥ := by cases side <;> decide
    have hproper : Files.Proper (.create r.fd side.mask side.proc e refused) := hmask
    obtain ⟨hsize, hevents⟩ := Files.create_events s.files r.fd side.mask side.proc e refused
    refine h.record hr (side.set_context r true) (h.tracked.step h.watched hproper)
      (h.watched.step h.tracked hproper) hsize ?_ ?_
    · intro fd hne
      rcases hevents with hsame | ⟨-, hevents⟩
      · exact congrFun hsame fd
      · exact (congrFun hevents fd).trans (Function.update_of_ne hne _ _)
    · intro hfd side' hbit
      rw [Side.flag_set]
      rcases hevents with hsame | ⟨-, hevents⟩
      · rw [Files.mask, hsame] at hbit
        rw [hsame]
        obtain ⟨hold, hrest⟩ := h.bits e r hr hfd side' hbit
        refine ⟨?_, hrest⟩
        split_ifs
        · rfl
        · exact hold
      · rw [Files.mask, hevents, Function.update_self, Side.bit_sup, Side.bit_mask,
          Bool.or_eq_true, decide_eq_true_eq] at hbit
        rw [hevents, Function.update_self, Side.fileProc_create, Side.bit_mask]
        by_cases hside : side' = side
        · rw [if_pos hside, decide_eq_true hside, hside]
          exact ⟨rfl, rfl, rfl⟩
        · obtain ⟨hold, hproc, -⟩ := h.bits e r hr hfd side' (hbit.resolve_right hside)
          rw [if_neg hside, decide_eq_false hside]
          exact ⟨hold, hproc, rfl⟩

theorem Bound.delEvent (h : s.Bound) (side : Side) {e : ℕ} {r : RedisAeEvents}
    (hr : s.records e = some r) :
    ∃ s', Adapters.delEvent side s e = some s' ∧ s'.Bound ∧ s'.data = s.data ∧
      ∃ r', s'.records e = some r' ∧ r'.context = r.context ∧ r'.fd = r.fd ∧
        (∀ side' : Side, side'.flag r' = true → side'.flag r = true ∧ side' ≠ side) := by
  rw [Adapters.delEvent, hr, Option.map_some]
  refine ⟨_, rfl, ?_⟩
  split_ifs with hflag
  · obtain ⟨hsize, hin, hout⟩ := Files.delete_events s.files r.fd side.mask
    have hproper : Files.Proper (.delete r.fd side.mask) := trivial
    refine ⟨?_, rfl, side.set r false, Function.update_self _ _ _, (side.set_context r false).1,
      (side.set_context r false).2, fun side' hset ↦ ?_⟩
    · refine h.record hr (side.set_context r false) (h.tracked.step h.watched hproper)
        (h.watched.step h.tracked hproper) hsize ?_ ?_
      · intro fd hne
        by_cases hlt : r.fd < s.files.setsize
        · exact (congrFun (hin hlt) fd).trans (Function.update_of_ne hne _ _)
        · exact congrFun (hout (not_lt.mp hlt)) fd
      · intro hfd side' hbit
        obtain ⟨-, hold, hproc, hdata⟩ :=
          Files.fewer_delete s.files r.fd side.mask r.fd (hsize ▸ hfd) side' hbit
        obtain ⟨hflag', hproc', hdata'⟩ := h.bits e r hr hfd side' hold
        have hne : side' ≠ side := by
          rintro rfl
          rw [Files.mask, hin hfd, Function.update_self, Side.bit_sdiff, Side.bit_mask,
            decide_eq_true rfl, Bool.not_true, Bool.and_false] at hbit
          exact nomatch hbit
        rw [Side.flag_set, if_neg hne]
        exact ⟨hflag', hproc.trans hproc', hdata.trans hdata'⟩
    · rw [Side.flag_set] at hset
      split_ifs at hset with hside
      exact ⟨hset, hside⟩
  · refine ⟨h, rfl, r, hr, rfl, rfl, fun side' hside ↦ ⟨hside, ?_⟩⟩
    rintro rfl
    exact hflag hside

/-- A record without flags is freed, and its context. -/
theorem Bound.free (h : s.Bound) {e : ℕ} {r : RedisAeEvents} (hr : s.records e = some r)
    (hflags : ∀ side : Side, side.flag r = false) :
    (⟨s.files, Function.update s.data r.context none, Function.update s.records e none⟩ :
      Adapters).Bound := by
  have hdata := h.context e r hr
  have hrecord : ∀ {e' r'}, Function.update s.records e none e' = some r' →
      e' ≠ e ∧ s.records e' = some r' := by
    intro e' r' hr'
    by_cases he : e' = e
    · subst he
      rw [Function.update_self] at hr'
      cases hr'
    · exact ⟨he, by rwa [Function.update_of_ne he] at hr'⟩
  refine ⟨h.tracked, h.watched, fun c e' hc ↦ ?_, fun e' r' hr' ↦ ?_,
    fun e₁ e₂ r₁ r₂ h₁ h₂ hfd ↦ h.sockets e₁ e₂ r₁ r₂ (hrecord h₁).2 (hrecord h₂).2 hfd,
    fun e' r' hr' ↦ h.bits e' r' (hrecord hr').2, fun fd hfd hfree side hbit ↦ ?_⟩
  · by_cases hcontext : c = r.context
    · subst hcontext
      exact nomatch (Function.update_self _ _ _).symm.trans hc
    · have hc : s.data c = some e' := (Function.update_of_ne hcontext _ _).symm.trans hc
      obtain ⟨r', hr', hcontext'⟩ := h.attached c e' hc
      refine ⟨r', (Function.update_of_ne ?_ _ _).trans hr', hcontext'⟩
      rintro rfl
      rw [Option.some.inj (hr.symm.trans hr')] at hcontext
      exact hcontext hcontext'.symm
  · obtain ⟨he, hold⟩ := hrecord hr'
    have hdata' := h.context e' r' hold
    refine (Function.update_of_ne ?_ _ _).trans hdata'
    intro heq
    rw [heq, hdata] at hdata'
    exact he (Option.some.inj hdata').symm
  · by_cases hown : r.fd = fd
    · subst hown
      have hflag := (h.bits e r hr hfd side hbit).1
      exact nomatch (hflags side).symm.trans hflag
    · apply h.foreign fd hfd _ side hbit
      intro e' r' hr'
      by_cases he : e' = e
      · subst he
        rwa [← Option.some.inj (hr.symm.trans hr')]
      · exact hfree e' r' ((Function.update_of_ne he _ _).trans hr')

theorem Bound.cleanup (h : s.Bound) {c e : ℕ} (hc : s.data c = some e) :
    ∃ s', s.redisAeCleanup e = some s' ∧
      ({ s' with data := Function.update s'.data c none } : Adapters).Bound := by
  obtain ⟨r, hr, rfl⟩ := h.attached c e hc
  obtain ⟨s₁, hrun₁, h₁, hdata₁, r₁, hr₁, hcontext₁, -, hflags₁⟩ := h.delEvent .read hr
  obtain ⟨s₂, hrun₂, h₂, hdata₂, r₂, hr₂, hcontext₂, -, hflags₂⟩ := h₁.delEvent .write hr₁
  refine ⟨{ s₂ with records := Function.update s₂.records e none }, ?_, ?_⟩
  · rw [redisAeCleanup, redisAeDelRead, hrun₁, Option.bind_some, redisAeDelWrite, hrun₂,
      Option.map_some]
  · rw [← hcontext₁, ← hcontext₂]
    apply h₂.free hr₂
    intro side
    by_contra hflag
    obtain ⟨hflag₁, hwrite⟩ := hflags₂ side (by simpa using hflag)
    obtain ⟨-, hread⟩ := hflags₁ side hflag₁
    cases side with
    | read => exact hread rfl
    | write => exact hwrite rfl

theorem Bound.attach (h : s.Bound) {c fd e : ℕ} (hc : s.data c = none) (he : s.records e = none)
    (hfree : s.Free fd) (hmask : fd < s.files.setsize → s.files.mask fd = ⊥) :
    (⟨s.files, Function.update s.data c (some e),
      Function.update s.records e (some ⟨c, fd, false, false⟩)⟩ : Adapters).Bound := by
  refine ⟨h.tracked, h.watched, fun c' e' hc' ↦ ?_, fun e' r' hr' ↦ ?_,
    fun e₁ e₂ r₁ r₂ h₁ h₂ hfd ↦ ?_, fun e' r' hr' hfd side hbit ↦ ?_,
    fun fd' hfd' hfree' side hbit ↦ ?_⟩
  · rcases update_cases hc' with ⟨rfl, rfl⟩ | ⟨-, hold⟩
    · exact ⟨_, Function.update_self _ _ _, rfl⟩
    · obtain ⟨r', hr', hcontext⟩ := h.attached c' e' hold
      refine ⟨r', (Function.update_of_ne ?_ _ _).trans hr', hcontext⟩
      rintro rfl
      exact nomatch he.symm.trans hr'
  · rcases update_cases hr' with ⟨rfl, rfl⟩ | ⟨hne, hold⟩
    · exact Function.update_self _ _ _
    · have hdata := h.context e' r' hold
      refine (Function.update_of_ne ?_ _ _).trans hdata
      intro heq
      rw [heq, hc] at hdata
      cases hdata
  · rcases update_cases h₁ with ⟨rfl, rfl⟩ | ⟨-, hold₁⟩
    · rcases update_cases h₂ with ⟨rfl, -⟩ | ⟨-, hold₂⟩
      · rfl
      · exact absurd hfd.symm (hfree e₂ r₂ hold₂)
    · rcases update_cases h₂ with ⟨rfl, rfl⟩ | ⟨-, hold₂⟩
      · exact absurd hfd (hfree e₁ r₁ hold₁)
      · exact h.sockets e₁ e₂ r₁ r₂ hold₁ hold₂ hfd
  · rcases update_cases hr' with ⟨rfl, rfl⟩ | ⟨-, hold⟩
    · rw [hmask hfd] at hbit
      exact nomatch (side.bit_bot).symm.trans hbit
    · exact h.bits e' r' hold hfd side hbit
  · apply h.foreign fd' hfd' _ side hbit
    intro e' r' hr'
    by_cases hee : e' = e
    · subst hee
      exact nomatch he.symm.trans hr'
    · exact hfree' e' r' ((Function.update_of_ne hee _ _).trans hr')

/-- Every operation is carried out, and keeps what is bound. -/
theorem Bound.step (h : s.Bound) {op : AdapterOp} (hop : s.Admits op) :
    ∃ s', s.step op = some s' ∧ s'.Bound := by
  have hcall : ∀ (c : ℕ) (f : ℕ → Option Adapters),
      (∀ e, s.data c = some e → ∃ s', f e = some s' ∧ s'.Bound) →
      ∃ s', s.callWith c f = some s' ∧ s'.Bound := by
    intro c f hf
    cases hc : s.data c with
    | none => exact ⟨s, by rw [callWith, hc], h⟩
    | some e =>
        obtain ⟨s', hrun, h'⟩ := hf e hc
        refine ⟨s', ?_, h'⟩
        rw [callWith, hc]
        exact hrun
  cases op with
  | attach c fd e =>
      rw [Adapters.step, redisAeAttach]
      by_cases hc : s.data c = none
      · rw [if_neg (not_not_intro hc)]
        cases e with
        | none => exact absurd hc hop
        | some e =>
            obtain ⟨he, hfree, -, hmask⟩ := hop
            exact ⟨_, rfl, h.attach hc he hfree hmask⟩
      · rw [if_pos hc]
        exact ⟨s, rfl, h⟩
  | addRead c refused =>
      apply hcall
      intro e hc
      obtain ⟨r, hr, -⟩ := h.attached c e hc
      exact h.addEvent .read hr refused
  | delRead c =>
      apply hcall
      intro e hc
      obtain ⟨r, hr, -⟩ := h.attached c e hc
      obtain ⟨s', hrun, h', -⟩ := h.delEvent .read hr
      exact ⟨s', hrun, h'⟩
  | addWrite c refused =>
      apply hcall
      intro e hc
      obtain ⟨r, hr, -⟩ := h.attached c e hc
      exact h.addEvent .write hr refused
  | delWrite c =>
      apply hcall
      intro e hc
      obtain ⟨r, hr, -⟩ := h.attached c e hc
      obtain ⟨s', hrun, h', -⟩ := h.delEvent .write hr
      exact ⟨s', hrun, h'⟩
  | cleanup c =>
      cases hc : s.data c with
      | none =>
          have hsame : Function.update s.data c none = s.data := by
            rw [← hc, Function.update_eq_self]
          refine ⟨s, ?_, h⟩
          rw [Adapters.step, callWith, hc, Option.map_some, hsame]
      | some e =>
          obtain ⟨s', hrun, h'⟩ := h.cleanup hc
          refine ⟨_, ?_, h'⟩
          rw [Adapters.step, callWith, hc]
          exact congrArg _ hrun
  | other a =>
      refine ⟨_, rfl, ?_⟩
      cases a with
      | create fd mask proc clientData refused =>
          obtain ⟨hmask, hfree, hread, hwrite⟩ := hop
          exact h.create hmask hfree hread hwrite clientData refused
      | delete fd mask =>
          have hproper : Files.Proper (.delete fd mask) := trivial
          exact h.fewer (h.tracked.step h.watched hproper) (h.watched.step h.tracked hproper)
            (Files.fewer_delete s.files fd mask)
      | resize setsize =>
          have hproper : Files.Proper (.resize setsize) := trivial
          exact h.fewer (h.tracked.step h.watched hproper) (h.watched.step h.tracked hproper)
            (Files.fewer_resize h.tracked setsize)
      | opened fd =>
          have hproper : Files.Proper (.opened fd) := trivial
          exact h.fewer (h.tracked.step h.watched hproper) (h.watched.step h.tracked hproper)
            (Files.fewer_of_events rfl rfl)
      | close fd =>
          have hproper : Files.Proper (.close fd) := trivial
          exact h.fewer (h.tracked.step h.watched hproper) (h.watched.step h.tracked hproper)
            (Files.fewer_of_events rfl rfl)

theorem reach_bound (hs : adapters.Reach Admits s) : s.Bound := by
  apply hs.invariant
  · intro s h
    exact .start h
  · intro s op s' h hop hstep
    obtain ⟨s₁, hrun, h'⟩ := h.step hop
    rwa [Option.some.inj (hstep.symm.trans hrun)]

/-- In every run the functions of the adapter find their record, and an event with one of its
procedures belongs to a record of an attached context, with its flag: what the loop calls is
never freed. -/
theorem adapters_dispatch (hs : adapters.Reach Admits s) :
    (∀ op, s.Admits op → (s.step op).isSome) ∧
      ∀ fd < s.files.setsize, ∀ side : Side, side.bit (s.files.mask fd) = true →
        side.fileProc (s.files.events fd) = side.proc →
          ∃ r, s.records (s.files.events fd).clientData = some r ∧ r.fd = fd ∧
            side.flag r = true ∧ s.data r.context = some (s.files.events fd).clientData := by
  have h := reach_bound hs
  refine ⟨fun op hop ↦ ?_, fun fd hfd side hbit hproc ↦ ?_⟩
  · obtain ⟨s', hrun, -⟩ := h.step hop
    rw [hrun]
    rfl
  · by_cases hfree : s.Free fd
    · exact absurd hproc (h.foreign fd hfd hfree side hbit)
    · simp only [Free, not_forall, not_not] at hfree
      obtain ⟨e, r, hr, rfl⟩ := hfree
      obtain ⟨hflag, -, hdata⟩ := h.bits e r hr hfd side hbit
      rw [hdata]
      exact ⟨r, hr, rfl, hflag, h.context e r hr⟩

/-- Context 3 has the socket 5 and the record 9. -/
theorem adapters_dispatch_read :
    ∃ s r, adapters.run ⟨Files.emptyLoop, fun _ ↦ none, fun _ ↦ none⟩
        [.other (.opened 5), .attach 3 5 (some 9), .addRead 3 false] = some s ∧
      s.records 9 = some r ∧ r.fd = 5 ∧ r.reading = true ∧ s.data r.context = some 9 := by
  have hstart : adapters.Reach Admits ⟨Files.emptyLoop, fun _ ↦ none, fun _ ↦ none⟩ :=
    .start ⟨Files.emptyLoop_created, fun _ ↦ rfl, fun _ ↦ rfl⟩
  have hmeets : adapters.Meets Admits ⟨Files.emptyLoop, fun _ ↦ none, fun _ ↦ none⟩
      [.other (.opened 5), .attach 3 5 (some 9), .addRead 3 false] :=
    ⟨trivial, ⟨rfl, nofun, rfl, fun _ ↦ rfl⟩, trivial, trivial⟩
  obtain ⟨r, hr, hfd, hflag, hdata⟩ :=
    (adapters_dispatch (hstart.run hmeets rfl)).2 5 (by decide) .read rfl rfl
  exact ⟨_, r, rfl, hr, hfd, hflag, hdata⟩

end Adapters

end Ae

end MuxHiredis
